import Covenant.Contract.Basic
import Covenant.Fault.Basic
import Covenant.Parse.Clause
import Covenant.Typing.Expr

/-!
# Binding clauses

A record is bound in the scope of the declaration that it is written on. A
record that makes no sense is dropped and reported, and the others are bound all
the same. Call sites of clauses are numbered after those of the program, record
after record; a record uses up numbers if its text is in order, whatever comes
of its meaning.
-/

namespace Covenant.Contract

open Surface (Expr)

/-- Where a clause stands. -/
structure ClauseScope where
  decl : DeclId
  className : String
  isStatic : Bool
  frame : Typing.ClauseFrame

def clauseFault {α : Type} (fault : ClauseFault) (span : Span) :
    Except (Located ClauseFault) α :=
  .error ⟨fault, span⟩

/-- The type of `result` in a clause of a member. -/
def resultType (tag : ClauseTag) (m : MethodInfo) : Option Ty :=
  if tag = .post && !m.isConstructor && m.returnType != .void then some m.returnType else none

/-- Invariants belong to classes, all other clauses to methods and constructors. -/
def scopeOf (env : Env) (r : ClauseRecord) : Except (Located ClauseFault) ClauseScope :=
  match r.tag, env.declKind? r.owner with
  | .invariant, some .ofClass =>
    .ok ⟨r.owner, (env.ownerOf? r.owner).getD "", false, ⟨[], none⟩⟩
  | .invariant, _ => clauseFault .misplacedInvariant r.span
  | tag, some .method | tag, some .constructor =>
    match env.method? r.owner with
    | some m => .ok ⟨m.id, m.owner, m.isStatic, ⟨m.params, resultType tag m⟩⟩
    | none => clauseFault (.misplaced tag .unknown) r.span
  | tag, some .ofClass | tag, some .ofInterface => clauseFault (.misplaced tag .types) r.span
  | tag, some .field => clauseFault (.misplaced tag .fields) r.span
  | tag, some .initializer => clauseFault (.misplaced tag .initializers) r.span
  | tag, none => clauseFault (.misplaced tag .unknown) r.span

/-- A clause about an exception names an exception class. -/
def checkSubject (env : Env) (r : ClauseRecord) : Except (Located ClauseFault) Unit :=
  if r.tag.hasSubject then
    match r.subject with
    | none => clauseFault (.noSubject r.tag) r.span
    | some name =>
      if env.isException name.val then .ok ()
      else clauseFault (.subjectNotException name.val) name.span
  else .ok ()

/-- What is wrong with `old` or `result` at this very place. -/
def misplacedForm? (isPost hasResult inOld : Bool) : Expr → Option (Located ClauseFault)
  | .old span _ =>
    if !isPost then some ⟨.oldOutsidePost, span⟩
    else if inOld then some ⟨.nestedOld, span⟩
    else none
  | .result span =>
    if !isPost then some ⟨.resultOutsidePost, span⟩
    else if !hasResult then some ⟨.resultWithoutValue, span⟩
    else none
  | _ => none

mutual

/-- The first place of an expression where `old` or `result` may not stand: `old` stands in
postconditions and not in itself, `result` in postconditions of members that return something. -/
def misplaced? (isPost hasResult inOld : Bool) (e : Expr) : Option (Located ClauseFault) :=
  (misplacedForm? isPost hasResult inOld e).or <|
    match e with
    | .int .. | .bool .. | .null .. | .this .. | .name .. | .result .. => none
    | .binary _ _ l r =>
      (misplaced? isPost hasResult inOld l).or (misplaced? isPost hasResult inOld r)
    | .unary _ _ x | .field _ x _ | .newArray _ _ x | .spread _ x =>
      misplaced? isPost hasResult inOld x
    | .index _ a i =>
      (misplaced? isPost hasResult inOld a).or (misplaced? isPost hasResult inOld i)
    | .call _ _ _ args | .new _ _ _ args => misplacedAny? isPost hasResult inOld args
    | .methodCall _ _ object _ args =>
      (misplaced? isPost hasResult inOld object).or (misplacedAny? isPost hasResult inOld args)
    | .old _ x => misplaced? isPost hasResult true x

def misplacedAny? (isPost hasResult inOld : Bool) : List Expr → Option (Located ClauseFault)
  | [] => none
  | e :: es => (misplaced? isPost hasResult inOld e).or (misplacedAny? isPost hasResult inOld es)

end

def checkForms (tag : ClauseTag) (hasResult : Bool) (e : Expr) :
    Except (Located ClauseFault) Unit :=
  match misplaced? (tag = .post) hasResult false e with
  | some fault => .error fault
  | none => .ok ()

/-- The expression with its meaning in the scope. Its calls are not written down. -/
def resolve (env : Env) (s : ClauseScope) (e : Expr) : Checked Typed.Expr :=
  Prod.fst <$> (Typing.checkExpr (.ofClause env s.className s.decl s.isStatic s.frame) e).run []

/-- A part that spreads what is no collection. -/
def badSpread? : Typed.Expr → Option (Located ClauseFault)
  | .spread span x => if x.type.elem?.isNone then some ⟨.notSpreadable x.type, span⟩ else none
  | _ => none

def checkSpreads (e : Typed.Expr) : Except (Located ClauseFault) Unit :=
  match e.parts.findSome? badSpread? with
  | some fault => .error fault
  | none => .ok ()

mutual

/-- The expressions that denote places: `this`, a parameter or a static field, with steps along
fields, calls without arguments, and elements. -/
def isPath : Typed.Expr → Bool
  | .this .. | .param .. | .staticField .. => true
  | .field _ _ object _ => isPath object
  | .call _ _ _ receiver _ _ args => args.isEmpty && isReceiverPath receiver
  | .spread _ x => isPath x
  | _ => false

def isReceiverPath : Option Typed.Expr → Bool
  | some object => isPath object
  | none => false

end

def boundClause (r : ClauseRecord) (e : Typed.Expr) : BoundClause :=
  ⟨r.tag, r.owner, String.ofList r.text, e, r.span⟩

/-- What a record says. -/
inductive Binding
  | condition (c : BoundClause)
  | targets (cs : List BoundClause)

def bindCondition (env : Env) (r : ClauseRecord) (s : ClauseScope) (e : Expr) :
    Except SourceFault Binding := do
  SourceFault.ofClause (checkForms r.tag s.frame.result.isSome e)
  let typed ← SourceFault.ofTyping (resolve env s e)
  if typed.type != .boolean then
    SourceFault.ofClause (clauseFault (.notBoolean r.tag typed.type) typed.span)
  return .condition (boundClause r typed)

def bindTarget (env : Env) (r : ClauseRecord) (s : ClauseScope) (e : Expr) :
    Except SourceFault BoundClause := do
  SourceFault.ofClause (checkForms r.tag false e)
  let typed ← SourceFault.ofTyping (resolve env s e)
  SourceFault.ofClause (checkSpreads typed)
  if !isPath typed then
    SourceFault.ofClause (clauseFault (.notPath typed.text) typed.span)
  return boundClause r typed

def bindBody (env : Env) (r : ClauseRecord) (s : ClauseScope) :
    Parse.ClauseBody → Except SourceFault Binding
  | .condition e => bindCondition env r s e
  | .targets es => .targets <$> es.mapM (bindTarget env r s)

/-- Where a record stands, and that its subject makes sense. -/
def placeRecord (env : Env) (r : ClauseRecord) : Except SourceFault ClauseScope :=
  SourceFault.ofClause do
    let s ← scopeOf env r
    checkSubject env r
    return s

/-- Binds one record; also the next free call site. -/
def bindRecord (env : Env) (r : ClauseRecord) (site : SiteId) :
    Except SourceFault Binding × SiteId :=
  match placeRecord env r with
  | .error fault => (.error fault, site)
  | .ok s =>
    match SourceFault.ofGrammar (Parse.clause r site) with
    | .error fault => (.error fault, site)
    | .ok (body, next) => (bindBody env r s body, next)

/-- The results of binding records in turn. -/
def bindAll (env : Env) :
    SiteId → List ClauseRecord → List (ClauseRecord × Except SourceFault Binding)
  | _, [] => []
  | site, r :: rs =>
    let (result, next) := bindRecord env r site
    (r, result) :: bindAll env next rs

/-- A fault with the declaration whose clause it is in. -/
structure Diagnostic where
  decl : DeclId
  fault : SourceFault
  deriving Repr, Inhabited

/-- Clauses by the declaration that they are written on. -/
structure Bound where
  decls : Table DeclId OwnClauses
  /-- The invariants that are written on each class. -/
  invariants : Table String (List BoundClause)
  errors : List Diagnostic
  deriving Inhabited

/-- The clauses of a declaration with one more. -/
def OwnClauses.addCondition (r : ClauseRecord) (c : BoundClause) (own : OwnClauses) : OwnClauses :=
  let throws : ThrowsClause := ⟨(r.subject.map (·.val)).getD "", c⟩
  match r.tag with
  | .pre => { own with preconditions := own.preconditions ++ [c] }
  | .post => { own with postconditions := own.postconditions ++ [c] }
  | .invariant => { own with invariants := own.invariants ++ [c] }
  | .throws => { own with throws := own.throws ++ [throws] }
  | .mayThrow => { own with mayThrow := own.mayThrow ++ [throws] }
  | .inspects | .mutates | .mutatesProperties => own

def EffectClauses.addTargets (tag : ClauseTag) (cs : List BoundClause) (e : EffectClauses) :
    EffectClauses :=
  match tag with
  | .inspects => { e with inspects := e.inspects ++ cs }
  | .mutates => { e with mutates := e.mutates ++ cs }
  | _ => { e with mutatesProperties := e.mutatesProperties ++ cs }

/-- Takes the result of one record in. -/
def Bound.add (env : Env) (b : Bound) : ClauseRecord × Except SourceFault Binding → Bound
  | (r, .error fault) => { b with errors := b.errors ++ [⟨r.owner, fault⟩] }
  | (r, .ok (.condition c)) =>
    let decls := b.decls.alter r.owner fun own => OwnClauses.addCondition r c (own.getD {})
    let invariants :=
      if r.tag = .invariant then
        b.invariants.alter ((env.ownerOf? r.owner).getD "") fun cs => cs.getD [] ++ [c]
      else b.invariants
    { b with decls, invariants }
  | (r, .ok (.targets cs)) =>
    { b with decls := b.decls.alter r.owner fun own =>
        let own := own.getD {}
        { own with effects := EffectClauses.addTargets r.tag cs own.effects } }

/-- Binds all records, with call sites from `firstSite` on. -/
def bind (env : Env) (records : List ClauseRecord) (firstSite : SiteId) : Bound :=
  (bindAll env firstSite records).foldl (Bound.add env) ⟨.empty, .empty, []⟩

end Covenant.Contract
