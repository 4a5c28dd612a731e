import Axton.Lib.Scan
import Axton.Core.Reader
import Axton.Core.Schema
import Axton.Compiler.History

/-!
# Parsing schema text

Model of `crates/compiler/src/parse.rs`: schema text to declarations with token positions. No semantic rule lives here.

| here | there |
|------|-------|
| `lex` | `lex` (parse.rs:427) |
| `Parser.expression`, `arguments` | `expression`, `arguments` (parse.rs:81, 105) |
| `Parser.field`, `slot` | `field`, `slot` (parse.rs:208, 376) |
| `Parser.declaration` | one round of the loop of `parse` (parse.rs:641) |
| `parse` | `parse` (parse.rs:634) |

The parser's index is the list of tokens that are left; it always ends with `<eof>`, which `take` does not pass. What
`serde_json` reads a number's text as is a parameter as far as it can fail on a text of the grammar (`finite`: the value is
in range).
-/

namespace Axton.Compiler

structure Pos where
  line : Nat := 0
  col : Nat := 0
deriving DecidableEq, Repr

structure Token where
  text : String
  line : Nat
  col : Nat
deriving DecidableEq, Repr

def Token.pos (t : Token) : Pos := ⟨t.line, t.col⟩

/-- A diagnostic at a source position. -/
def diagnostic (pos : Pos) (msg : String) : String := s!"{pos.line}:{pos.col}: {msg}"

/-! ## Declarations -/

inductive DefaultExpr where
  | string (s : String)
  | number (text : String)
  | identifier (name : String)
  | call (name : String) (arguments : Nat)
deriving DecidableEq, Repr

structure DefaultDecl where
  expr : DefaultExpr
  pos : Pos

structure FieldDecl where
  name : String
  typeName : String
  list : Bool
  nullable : Bool
  attributes : Fields
  deprecated : Option (Option String)
  default : Option DefaultDecl
  pos : Pos

structure EnumDecl where
  name : String
  values : List String
  deprecated : List (String × Option String)
  pos : Pos

structure UniqueDecl where
  fields : List String
  pos : Pos

structure ModelDecl where
  name : String
  abstractModel : Bool
  parent : Option String
  bootstrap : Bool
  version : Nat
  identity : List String
  fields : List FieldDecl
  unique : List UniqueDecl
  pos : Pos

structure SequenceDecl where
  arguments : Json
  pos : Pos

structure SlotDecl where
  name : String
  model : String
  operation : String
  cardinality : String
  allowedPatchFields : Option (List String)
  relationBindings : Json
  deprecated : Option (Option String)
  pos : Pos

structure MutationDecl where
  name : String
  version : Nat
  slots : List SlotDecl
  sequence : Option SequenceDecl
  pos : Pos

inductive ActionInputDecl where
  | value (f : FieldDecl)
  | model (s : SlotDecl)

structure ActionOutputDecl where
  field : FieldDecl

structure ActionDecl where
  name : String
  kind : CallKind
  version : Nat
  inputs : List ActionInputDecl
  outputs : List ActionOutputDecl
  sequence : Option SequenceDecl
  pos : Pos

structure LoadDecl where
  name : String
  version : Nat
  inputs : List ActionInputDecl
  outputs : List ActionOutputDecl
  pos : Pos

structure PrerequisiteField where
  name : String
  typeName : String
  pos : Pos

structure PrerequisiteDecl where
  name : String
  fields : List PrerequisiteField
  pos : Pos

/-- Everything the source declares, each kind in source order. -/
structure Declarations where
  enums : List EnumDecl := []
  models : List ModelDecl := []
  mutations : List MutationDecl := []
  actions : List ActionDecl := []
  loads : List LoadDecl := []
  prerequisites : List PrerequisiteDecl := []
  «end» : Pos := {}

/-! ## Tokens -/

/-- `c.is_ascii_alphanumeric() || c == '_'`. -/
def wordChar (c : Char) : Bool := c.isAlphanum || c = '_'

def punctuation : List Char := ['\x7b', '\x7d', '(', ')', '[', ']', '?', ',', '.', '@', '<', '>', ':', '-']

/-- The text of a string literal after its opening quote, up to and with the closing one. -/
def literal : List Char → Option (List Char × List Char)
  | [] => none
  | '"' :: cs => some (['"'], cs)
  | ['\\'] => none
  | '\\' :: c :: cs => (literal cs).map fun r => ('\\' :: c :: r.1, r.2)
  | c :: cs => (literal cs).map fun r => (c :: r.1, r.2)

def eof : String := "<eof>"

/-- The loop of `lex`, one token or one gap a round; as many rounds as there are characters are enough. -/
def lexFrom : Nat → List Char → Nat → Nat → Except String (List Token)
  | 0, _, line, col => .ok [⟨eof, line, col⟩]
  | _, [], line, col => .ok [⟨eof, line, col⟩]
  | fuel + 1, c :: cs, line, col =>
    if c = '\n' then lexFrom fuel cs (line + 1) 1
    else if isWhiteSpace c then lexFrom fuel cs line (col + 1)
    else if c = '/' ∧ cs.head? = some '/' then
      lexFrom fuel (cs.dropWhile (· ≠ '\n')) line (col + 1 + (cs.takeWhile (· ≠ '\n')).length)
    else if wordChar c then do
      let word := c :: cs.takeWhile wordChar
      return ⟨String.ofList word, line, col⟩ :: (← lexFrom fuel (cs.dropWhile wordChar) line (col + word.length))
    else if c = '"' then match literal cs with
      | none => .error (diagnostic ⟨line, col⟩ "unterminated string")
      | some (text, rest) => do
        return ⟨String.ofList (c :: text), line, col⟩ :: (← lexFrom fuel rest line (col + (c :: text).length))
    else if c ∈ punctuation then do
      return ⟨String.singleton c, line, col⟩ :: (← lexFrom fuel cs line (col + 1))
    else .error (diagnostic ⟨line, col⟩ s!"unsupported character {c}")

def lex (source : String) : Except String (List Token) := lexFrom source.toList.length source.toList 1 1

/-! ## Reading tokens -/

abbrev Parser (α : Type) := Scan Token α

namespace Parser

/-- The token at the index; the list is never empty. -/
def token : Parser Token := return (← get).headD ⟨eof, 0, 0⟩

/-- `pos` (parse.rs:27). -/
def pos : Parser Pos := return (← token).pos

def peek : Parser String := return (← token).text

/-- Fail with `err` (parse.rs:34). -/
def fail {α : Type} (msg : String) : Parser α := do
  let t ← token
  throw (diagnostic t.pos s!"{msg} (found '{t.text}')")

/-- Fail with `at` (parse.rs:19). -/
def failAt {α : Type} (pos : Pos) (msg : String) : Parser α := throw (diagnostic pos msg)

def take : Parser String := do
  let s ← peek
  if s ≠ eof then set ((← get).drop 1)
  return s

def eat (s : String) : Parser Bool := do
  if (← peek) = s then
    let _ ← take
    return true
  else return false

def need (s : String) : Parser Unit := do
  unless ← eat s do fail s!"expected {s}"

def isIdent (s : String) : Bool := match s.toList with
  | c :: cs => (c.isAlpha || c = '_') && cs.all wordChar
  | [] => false

def ident : Parser String := do
  let s ← take
  if isIdent s then return s else fail "expected identifier"

/-- `while !self.eat(end) { step }`. -/
def upTo {σ : Type} (stop : String) (step : σ → Parser σ) (s : σ) : Parser σ :=
  Scan.loop (return !(← eat stop)) step s

/-- `if self.peek() != end { self.need(",")?; }`. -/
def comma (stop : String) : Parser Unit := do
  if (← peek) ≠ stop then need ","

/-- `ident(.ident)*`. -/
def path : Parser String := do
  Scan.loop (eat ".") (fun name => return name ++ "." ++ (← ident)) (← ident)

/-- What `serde_json` reads from the text of a string literal. -/
def decodeString (text : String) : Option String := match text.toList with
  | '"' :: cs => match readString (cs.length + 1) cs with
    | some (s, []) => some (String.ofList s)
    | _ => none
  | _ => none

def quoted (s : String) : Bool := s.toList.head? = some '"'

def string : Parser String := do
  match decodeString (← take) with
  | some s => return s
  | none => fail "invalid string"

/-- A name is `ident(.ident)*` before `:` (parse.rs:109); these are the texts after its first token. -/
def named : List String → Bool
  | [] => false
  | [t] => t = ":"
  | t :: _ :: ts => if t = "." then named ts else t = ":"

/-- One argument (parse.rs:108). -/
def argument (expression : Parser Json) (s : Fields × Nat) : Parser (Fields × Nat) := do
  let (key, positional) ← if named (((← get).drop 1).map (·.text)) then do
      let k ← path
      need ":"
      pure (k, s.2)
    else pure (toString s.2, s.2 + 1)
  let value ← expression
  if s.1.contains key then fail "duplicate argument"
  comma ")"
  return (s.1.insert key value, positional)

def argumentsOf (expression : Parser Json) : Parser Json := do
  need "("
  let (args, _) ← upTo ")" (argument expression) ([], 0)
  return .obj args

/-- `expression` (parse.rs:81) with at most `n` levels. -/
def expressionOf : Nat → Parser Json
  | 0 => throw "out of levels"
  | n + 1 => do
    if ← eat "[" then
      return .arr (← upTo "]" (fun items => do
        let item ← expressionOf n
        comma "]"
        return items ++ [item]) [])
    if quoted (← peek) then return .str (← string)
    let name ← path
    if (← peek) = "(" then
      return .obj (Fields.extend [] [("name", .str name), ("arguments", ← argumentsOf (expressionOf n))])
    return .str name

/-- Each level takes a token. -/
def expression : Parser Json := do expressionOf ((← get).length + 1)

def arguments : Parser Json := argumentsOf expression

/-- The `(n)` of a version directive (parse.rs:141). -/
def version (seen : Bool) : Parser Nat := do
  if seen then fail "duplicate version"
  need "("
  match parseVersion (← take) with
  | none => fail "expected positive version"
  | some v =>
    if v = 0 ∨ maxSafeInteger < v then fail "version must be positive"
    need ")"
    return v

/-- The arguments of a `@deprecated` directive (parse.rs:159). -/
def deprecation : Parser (Option String) := do
  if !(← eat "(") then return none
  if ← eat ")" then return none
  if (← ident) ≠ "reason" then fail "deprecated accepts only reason"
  need ":"
  if !quoted (← peek) then fail "deprecated reason must be a string"
  let reason ← string
  need ")"
  return some reason

def names (stop : String) : Parser (List String) :=
  upTo stop (fun ns => do
    let n ← ident
    comma stop
    return ns ++ [n]) []

/-- `if self.eat("[") { self.need("]")?; true } else { false }`. -/
def brackets : Parser Bool := do
  if ← eat "[" then
    need "]"
    return true
  return false

def actionShape : Parser (Bool × Bool) := do
  let list ← brackets
  let nullable ← eat "?"
  if (← peek) = "[" then
    fail (if nullable then "nullable list elements are unsupported" else "nested lists are unsupported")
  if list ∧ nullable then fail "nullable lists are unsupported"
  return (list, nullable)

/-- A directive with one `@` comes next. -/
def directive : Parser Bool := do
  let next := ((← get).map (·.text))[1]?
  return decide ((← peek) = "@") && next.any fun t => t ≠ "@"

/-! ### Defaults -/

section Number
variable (finite : String → Bool)

/-- The digits at the front, at least one. -/
def digits (cs : List Char) : Option (List Char) :=
  if (cs.takeWhile Char.isDigit).isEmpty then none else some (cs.dropWhile Char.isDigit)

/-- What follows the integer part of a JSON number: no leading zeros. -/
def integerPart : List Char → Option (List Char)
  | '0' :: cs => some cs
  | cs => digits cs

def fractionPart : List Char → Option (List Char)
  | '.' :: cs => digits cs
  | cs => some cs

def exponentPart : List Char → Option (List Char)
  | c :: cs =>
    if c = 'e' ∨ c = 'E' then match cs with
      | '+' :: cs | '-' :: cs => digits cs
      | cs => digits cs
    else some (c :: cs)
  | [] => some []

/-- `serde_json::from_str::<Number>` succeeds: a number of the JSON grammar whose value is in range. -/
def isNumber (text : String) : Bool :=
  let unsigned := match text.toList with
    | '-' :: cs => cs
    | cs => cs
  (integerPart unsigned >>= fractionPart >>= exponentPart) = some [] && finite text

/-- `next` directly follows `previous` and is spelled as a number goes on (parse.rs:320). -/
def continues (previous next : Token) : Bool :=
  (next.line = previous.line && next.col = previous.col + previous.text.length) &&
    (next.text = "." || next.text = "-" || next.text.toList.head?.any Char.isAlphanum) && next.text ≠ eof

/-- The adjacent tokens that spell a number, after its first one. -/
def adjacent : Token → List Token → List Token
  | previous, t :: ts => if continues previous t then t :: adjacent t ts else []
  | _, [] => []

/-- All tokens of the number at the front. -/
def numeral : List Token → List Token
  | [] => []
  | t :: ts => t :: adjacent t ts

/-- `number` (parse.rs:315). -/
def number : Parser String := do
  let ts ← get
  let text := String.join ((numeral ts).map (·.text))
  if isNumber finite text then
    set (ts.drop (numeral ts).length)
    return text
  fail "invalid default number"

/-- `-` or a digit comes next. -/
def startsNumber (s : String) : Bool := s = "-" || s.toList.head?.any Char.isDigit

def defaultArgument (arguments : Nat) : Parser Nat := do
  if (← peek) = eof then fail "expected )"
  if startsNumber (← peek) then
    let _ ← number finite
  else
    let _ ← expression
  comma ")"
  return arguments + 1

/-- The `(expression)` of a `@default` directive (parse.rs:275). -/
def defaultValue (pos : Pos) : Parser DefaultDecl := do
  need "("
  if (← peek) = ")" then fail "expected default value"
  let expr ← if quoted (← peek) then DefaultExpr.string <$> string
    else if startsNumber (← peek) then DefaultExpr.number <$> number finite
    else do
      let name ← ident
      if (← peek) = "(" then
        need "("
        DefaultExpr.call name <$> upTo ")" (defaultArgument finite) 0
      else pure (.identifier name)
  need ")"
  return ⟨expr, pos⟩

end Number

/-! ### Fields and operands -/

/-- A field's attributes as they are read (parse.rs:229-262). -/
structure Attributes where
  args : Fields := []
  deprecated : Option (Option String) := none
  default : Option DefaultDecl := none

def fieldDirective (finite : String → Bool) (s : Attributes) : Parser Attributes := do
  let directivePos ← pos
  need "@"
  let attr ← ident
  if attr = "deprecated" then
    if s.deprecated.isSome then fail "duplicate field directive"
    return { s with deprecated := some (← deprecation) }
  if attr = "default" then
    if s.default.isSome then fail "duplicate field directive"
    return { s with default := some (← defaultValue finite directivePos) }
  if attr ∉ ["reference", "inverse", "requires"] then fail s!"unsupported field directive {attr}"
  let args ← arguments
  if s.args.contains attr then fail "duplicate field directive"
  return { s with args := s.args.insert attr args }

def fieldAfterHeader (finite : String → Bool) (name typeName : String) (pos : Pos) (action : Bool) :
    Parser FieldDecl := do
  let (list, nullable) ← if action then actionShape else do
    let list ← brackets
    let nullable ← eat "?"
    pure (list, nullable)
  let s ← Scan.loop directive (fieldDirective finite) {}
  return ⟨name, typeName, list, nullable, s.args, s.deprecated, s.default, pos⟩

def field (finite : String → Bool) (action : Bool) : Parser FieldDecl := do
  let pos ← pos
  let name ← ident
  let typeName ← ident
  fieldAfterHeader finite name typeName pos action

/-- One directive of a slot (parse.rs:400). -/
def slotDirective (deprecated : Option (Option String)) : Parser (Option (Option String)) := do
  need "@"
  let attr ← ident
  if attr ≠ "deprecated" then fail s!"unsupported slot directive {attr}"
  if deprecated.isSome then fail "duplicate deprecated"
  return some (← deprecation)

/-- The operation of a slot, the patch fields it allows and its bindings (parse.rs:377-395). -/
def slotHead : Parser (String × Option (List String) × Json) := do
  need "."
  let operation ← ident
  if operation ∉ ["create", "update", "delete"] then fail "unknown operation"
  let allowed ← if ← eat "<" then do
      if operation ≠ "update" then fail "field restriction requires update"
      some <$> names ">"
    else pure none
  let bindings ← if (← peek) = "(" then arguments else pure (.obj [])
  return (operation, allowed, bindings)

def cardinality (list nullable : Bool) : String := if list then "list" else if nullable then "optional" else "single"

def slot (name model : String) (pos : Pos) : Parser SlotDecl := do
  let (operation, allowed, bindings) ← slotHead
  let (list, nullable) ← actionShape
  let deprecated ← Scan.loop directive slotDirective none
  return ⟨name, model, operation, cardinality list nullable, allowed, bindings, deprecated, pos⟩

/-- A slot of a mutation block (parse.rs:878-930): its shape is read without the checks of `action_shape`. -/
def blockSlot : Parser SlotDecl := do
  let directivePos ← pos
  let name ← ident
  let model ← ident
  let (operation, allowed, bindings) ← slotHead
  let list ← brackets
  let nullable ← if list then pure false else eat "?"
  let deprecated ← Scan.loop directive slotDirective none
  return ⟨name, model, operation, cardinality list nullable, allowed, bindings, deprecated, directivePos⟩

def operationInput (finite : String → Bool) (inputs : List ActionInputDecl) :
    Parser (List ActionInputDecl) := do
  let inputPos ← pos
  let inputName ← ident
  let inputType ← ident
  let input ← if (← peek) = "." then .model <$> slot inputName inputType inputPos
    else .value <$> fieldAfterHeader finite inputName inputType inputPos true
  if (← peek) = eof then fail "expected )"
  comma ")"
  return inputs ++ [input]

/-- `operation_inputs` (parse.rs:338). -/
def operationInputs (finite : String → Bool) : Parser (List ActionInputDecl) := do
  need "("
  upTo ")" (operationInput finite) []

def operationOutput (finite : String → Bool) (outputs : List ActionOutputDecl) :
    Parser (List ActionOutputDecl) := do
  if (← peek) = eof then fail "expected \x7d"
  let f ← field finite true
  let _ ← eat ","
  return outputs ++ [⟨f⟩]

/-- `operation_outputs` (parse.rs:363). -/
def operationOutputs (finite : String → Bool) : Parser (List ActionOutputDecl) :=
  upTo "\x7d" (operationOutput finite) []

/-! ### Declarations -/

/-- The directives before a declaration. -/
structure Leading where
  version : Nat := 1
  versionSeen : Bool := false
  sequence : Option SequenceDecl := none

def leadingDirective (s : Leading) : Parser Leading := do
  let directivePos ← pos
  need "@"
  let attr ← ident
  if attr = "version" then return { s with version := ← version s.versionSeen, versionSeen := true }
  else if attr = "sequence" then
    if s.sequence.isSome then fail "duplicate sequence"
    return { s with sequence := some ⟨← arguments, directivePos⟩ }
  else fail s!"unsupported declaration directive {attr}"

/-- One value of an enum and its `@deprecated`, which may stand once. -/
def enumValue (s : List String × List (String × Option String)) :
    Parser (List String × List (String × Option String)) := do
  let value ← ident
  let mark ← Scan.loop directive (fun mark => do
    need "@"
    let attr ← ident
    if attr ≠ "deprecated" then fail s!"unsupported enum value directive {attr}"
    if mark.isSome then fail "duplicate deprecated"
    return some (← deprecation)) (none : Option (Option String))
  let _ ← eat ","
  return (s.1 ++ [value], s.2 ++ (mark.map fun reason => (value, reason)).toList)

/-- The body of a model as it is read (parse.rs:801-857). -/
structure ModelBody where
  bootstrap : Bool := false
  version : Nat
  versionSeen : Bool
  identity : List String := []
  fields : List FieldDecl := []
  unique : List UniqueDecl := []

def modelItem (finite : String → Bool) (abstractModel : Bool) (s : ModelBody) : Parser ModelBody := do
  let directivePos ← pos
  if ← eat "@" then
    need "@"
    let attr ← ident
    if abstractModel then failAt directivePos "abstract models cannot declare model directives"
    if attr = "bootstrap" then
      if s.bootstrap then failAt directivePos "duplicate bootstrap"
      return { s with bootstrap := true }
    if attr = "version" then return { s with version := ← version s.versionSeen, versionSeen := true }
    need "("
    let fields ← names ")"
    if attr = "id" then
      if s.identity ≠ [] then fail "duplicate identity"
      return { s with identity := fields }
    else if attr = "unique" then return { s with unique := s.unique ++ [⟨fields, directivePos⟩] }
    else fail s!"unsupported model directive {attr}"
  return { s with fields := s.fields ++ [← field finite false] }

/-- The body of a mutation block as it is read (parse.rs:858-935). -/
structure MutationBody where
  version : Nat := 1
  versionSeen : Bool := false
  sequence : Option SequenceDecl := none
  slots : List SlotDecl := []

def mutationItem (s : MutationBody) : Parser MutationBody := do
  let directivePos ← pos
  if ← eat "@" then
    need "@"
    let attr ← ident
    -- a later sequence replaces an earlier one
    if attr = "sequence" then return { s with sequence := some ⟨← arguments, directivePos⟩ }
    if attr ≠ "version" then fail s!"unsupported mutation directive {attr}"
    return { s with version := ← version s.versionSeen, versionSeen := true }
  return { s with slots := s.slots ++ [← blockSlot] }

def prerequisiteField (fields : List PrerequisiteField) : Parser (List PrerequisiteField) := do
  let pos ← pos
  let name ← ident
  let typeName ← ident
  comma ")"
  return fields ++ [⟨name, typeName, pos⟩]

/-- The rest of `load Name`, whose outputs are required (parse.rs:699-730). -/
def loadRest (finite : String → Bool) (leading : Leading) (name : String) (pos : Pos) : Parser LoadDecl := do
  if let some sequence := leading.sequence then failAt sequence.pos s!"Load {name} cannot declare @sequence"
  let inputs ← operationInputs finite
  if (← peek) ≠ "\x7b" then fail s!"expected \x7b with the outputs of Load {name}"
  need "\x7b"
  if (← peek) = "\x7d" then failAt (← Parser.pos) s!"Load {name} requires at least one output"
  let outputs ← operationOutputs finite
  return ⟨name, leading.version, inputs, outputs, pos⟩

/-- The rest of `mutation Name(` or `query Name(` (parse.rs:731-744). -/
def operationRest (finite : String → Bool) (leading : Leading) (kind : CallKind) (name : String) (pos : Pos) :
    Parser ActionDecl := do
  let inputs ← operationInputs finite
  let outputs ← if ← eat "\x7b" then operationOutputs finite else pure []
  return ⟨name, kind, leading.version, inputs, outputs, leading.sequence, pos⟩

/-- The declarations with braces that are left (parse.rs:773-939). -/
def blockRest (finite : String → Bool) (leading : Leading) (kind name : String) (abstractModel : Bool)
    (parent : Option String) (pos : Pos) (d : Declarations) : Parser Declarations := do
  if kind = "enum" then
    let (values, deprecated) ← upTo "\x7d" enumValue ([], [])
    return { d with enums := d.enums ++ [⟨name, values, deprecated, pos⟩] }
  else if kind = "model" then
    let s ← upTo "\x7d" (modelItem finite abstractModel)
      { version := leading.version, versionSeen := leading.versionSeen }
    return { d with models := d.models ++
      [⟨name, abstractModel, parent, s.bootstrap, s.version, s.identity, s.fields, s.unique, pos⟩] }
  else if kind = "mutation" then
    let s ← upTo "\x7d" mutationItem {}
    return { d with mutations := d.mutations ++ [⟨name, s.version, s.slots, s.sequence, pos⟩] }
  else fail s!"unsupported declaration {kind}"

/-- `mutation Name(` and `query Name(` are operations. -/
def operationKind (kind : String) : Parser (Option CallKind) := do
  if kind = "query" then return some .query
  if kind = "mutation" then
    if (← peek) = "(" then return some .mutation
  return none

def parentName (kind : String) : Parser (Option String) := do
  if kind = "model" then
    if ← eat "extends" then return some (← ident)
  return none

/-- A declaration after its kind and name (parse.rs:682-939). -/
def declarationRest (finite : String → Bool) (leading : Leading) (kind name : String)
    (abstractModel : Bool) (pos : Pos)
    (d : Declarations) : Parser Declarations := do
  let operation ← operationKind kind
  if (leading.versionSeen ∨ leading.sequence.isSome) ∧ operation = none ∧ kind ≠ "model" ∧ kind ≠ "load" then
    fail s!"declaration directives are unsupported on {kind}"
  if kind = "model" ∧ leading.sequence.isSome then fail "sequence requires mutation"
  if kind = "load" then return { d with loads := d.loads ++ [← loadRest finite leading name pos] }
  match operation with
  | some operation => return { d with actions := d.actions ++ [← operationRest finite leading operation name pos] }
  | none =>
    if kind = "prerequisite" then
      need "("
      return { d with prerequisites := d.prerequisites ++ [⟨name, ← upTo ")" prerequisiteField [], pos⟩] }
    let parent ← parentName kind
    if abstractModel ∧ leading.versionSeen then failAt pos "abstract models cannot declare a runtime version"
    need "\x7b"
    blockRest finite leading kind name abstractModel parent pos d

/-- One declaration with its leading directives. -/
def declaration (finite : String → Bool) (d : Declarations) : Parser Declarations := do
  let leading ← Scan.loop (return decide ((← peek) = "@")) leadingDirective {}
  if (← peek) = eof ∧ (leading.versionSeen ∨ leading.sequence.isSome) then fail "expected declaration after directive"
  let pos ← pos
  if (← peek) = "action" then
    fail "action declarations were replaced: declare mutation Name(...) or query Name(...)"
  let abstractModel ← eat "abstract"
  if abstractModel then need "model"
  let kind ← if abstractModel then pure "model" else take
  let name ← ident
  declarationRest finite leading kind name abstractModel pos d

/-- `parse` (parse.rs:634) after the lexer. -/
def declarations (finite : String → Bool) : Parser Declarations := do
  let d ← Scan.loop (return decide ((← peek) ≠ eof)) (declaration finite) {}
  return { d with «end» := ← pos }

end Parser

/-- `parse` (parse.rs:634). -/
def parse (finite : String → Bool) (source : String) : Except String Declarations := do
  let tokens ← lex source
  (·.1) <$> (Parser.declarations finite).run tokens

end Axton.Compiler
