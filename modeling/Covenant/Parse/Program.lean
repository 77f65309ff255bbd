import Covenant.Parse.Stmt

/-!
# Members, classes and interfaces
-/

namespace Covenant.Parse

open Surface (Expr TypeExpr Block DocComment Param Member TypeDecl Program)

/-- The parameters up to the closing parenthesis; all but the first follow a comma. -/
def parameterList : Nat → Bool → Parser (List Param)
  | 0, _ => return []
  | n + 1, isFirst => do
    if ← atCloser .rparen then
      return []
    if !isFirst then
      let _ ← expectMark .comma
    let type ← typeExpr
    let name ← expectName
    let rest ← parameterList n false
    return ⟨name, type⟩ :: rest

def parameters : Parser (List Param) := do
  let _ ← expectMark .lparen
  let params ← parameterList (← budget) true
  let _ ← expectMark .rparen
  return params

/-- Whether a constructor of the class `owner` starts here: its name with parameters behind it. -/
def isConstructorAhead (owner : String) : Parser Bool := do
  return (← isAhead 0 (.ident owner)) && (← isAhead 1 (.symbol .lparen))

def constructorDecl (id : DeclId) (doc : Option DocComment) (start : Nat) : Parser Member := do
  let name ← expectName
  let params ← parameters
  let body ← block
  return .constructor {
    id, doc, name, params
    isStatic := false
    isConstructor := true
    returnType := none
    body := some body
    span := ⟨start, body.span.stop⟩ }

/-- A field or a method; which of the two shows only after the name. -/
def typedMember (id : DeclId) (doc : Option DocComment) (start : Nat) (isStatic : Bool) :
    Parser Member := do
  let type ← if ← eatWord .void_ then pure none else some <$> typeExpr
  let name ← expectName
  if ← isNextMark .lparen then
    let params ← parameters
    let (body, stop) ←
      if ← isNextMark .semi then
        pure (none, ← semicolon)
      else do
        let body ← block
        pure (some body, body.span.stop)
    return .method {
      id, doc, isStatic, name, params, body
      isConstructor := false
      returnType := type
      span := ⟨start, stop⟩ }
  match type with
  | none => failAt .voidField name.span
  | some type =>
    let init ← optionalValue
    let stop ← semicolon
    return .field { id, doc, isStatic, type, name, init, span := ⟨start, stop⟩ }

def member (owner : String) : Parser Member := do
  let doc ← documentation
  let start ← position
  let id ← freshDecl
  if ← isNextMark .lbrace then
    let body ← block
    return .initializer { id, doc, body, span := ⟨start, body.span.stop⟩ }
  let isStatic ← eatWord .static_
  if !isStatic && (← isConstructorAhead owner) then
    constructorDecl id doc start
  else
    typedMember id doc start isStatic

/-- Interfaces declare methods of objects, without bodies. -/
def isSignature : Member → Bool
  | .method d => d.body.isNone && !d.isStatic
  | _ => false

def members (owner : String) (kind : Surface.TypeKind) : Nat → Parser (List Member)
  | 0 => return []
  | n + 1 => do
    if ← atCloser .rbrace then
      return []
    let m ← member owner
    if kind = .ofInterface && !isSignature m then
      failAt .interfaceMember m.span
    let rest ← members owner kind n
    return m :: rest

/-- Names with commas between them. -/
def nameList : Nat → Parser (List (Located String))
  | 0 => return []
  | n + 1 => do
    let name ← expectName
    if ← eatMark .comma then
      return name :: (← nameList n)
    return [name]

/-- The names after `word`, or none if it is not there. -/
def namesAfter (word : Keyword) : Parser (List (Located String)) := do
  if ← eatWord word then
    nameList ((← budget) + 1)
  else
    return []

/-- The rest of a type whose first word is the one that `start` is the span of. -/
def typeDecl (kind : Surface.TypeKind) (doc : Option DocComment) (start : Span) :
    Parser TypeDecl := do
  let id ← freshDecl
  let name ← expectName
  let superclass ← match kind with
    | .ofClass => if ← eatWord .extends_ then some <$> expectName else pure none
    | .ofInterface => pure none
  let interfaces ← match kind with
    | .ofClass => namesAfter .implements_
    | .ofInterface => namesAfter .extends_
  let _ ← expectMark .lbrace
  let members ← members name.val kind (← budget)
  let close ← expectMark .rbrace
  return { id, kind, name, superclass, interfaces, doc, members, span := ⟨start.start, close.stop⟩ }

def typeDecls : Nat → Parser (List TypeDecl)
  | 0 => return []
  | n + 1 => do
    let doc ← documentation
    match ← peek with
    | none => return []
    | some ⟨.keyword .class_, span, _⟩ =>
      skip
      let t ← typeDecl .ofClass doc span
      return t :: (← typeDecls n)
    | some ⟨.keyword .interface_, span, _⟩ =>
      skip
      let t ← typeDecl .ofInterface doc span
      return t :: (← typeDecls n)
    | some _ => failExpected .declaration

def unit : Parser Program := do
  let types ← typeDecls (← budget)
  let s ← get
  return { types, declCount := s.nextDecl, siteCount := s.nextSite }

/-- The program that a list of tokens makes up. -/
def programOfTokens (ts : List (Located Token)) : Except (Located GrammarFault) Program :=
  Prod.fst <$> unit.run (State.ofTokens ts 0)

/-- The program that a text holds. -/
def program (source : String) : Except (Located GrammarFault) Program := do
  programOfTokens (← Scan.program source.toList)

end Covenant.Parse
