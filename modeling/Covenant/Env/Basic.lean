import Covenant.Source.Table
import Covenant.Typed.Stmt

/-!
# The environment

What is known of a program once its declarations have been read: its types with
their members, and after checking also typed bodies and call sites. The
questions that later passes ask of a type hierarchy are answered here: chains of
superclasses, supertypes, members by name, and which method runs for a receiver.
-/

namespace Covenant

/-- What is run on a new object, in textual order. -/
inductive InitItem
  | field (id : DeclId)
  | block (id : DeclId)
  deriving DecidableEq, Repr, Inhabited

structure ClassInfo where
  id : DeclId
  name : String
  isInterface : Bool
  isBuiltin : Bool
  superclass : Option String
  interfaces : List String
  fields : List DeclId
  methods : List DeclId
  ctors : List DeclId
  /-- Fields of objects that have an initializer, and initializer blocks. -/
  initOrder : List InitItem
  span : Span
  deriving Repr, Inhabited

structure FieldInfo where
  id : DeclId
  name : String
  owner : String
  type : Ty
  isStatic : Bool
  span : Span
  deriving Repr, Inhabited

structure MethodInfo where
  id : DeclId
  name : String
  owner : String
  params : List (String × Ty)
  /-- `void` for constructors too. -/
  returnType : Ty
  isStatic : Bool
  isConstructor : Bool
  hasBody : Bool
  span : Span
  deriving Repr, Inhabited

namespace FieldInfo

/-- The name with the class in front. -/
def qualifiedName (f : FieldInfo) : String := f.owner ++ "." ++ f.name

end FieldInfo

namespace MethodInfo

def paramTypes (m : MethodInfo) : List Ty := m.params.map (·.2)

/-- Two methods with one signature cannot stand in one class, and in a subclass one of them
overrides the other. -/
def sameSignature (a b : MethodInfo) : Bool := a.name == b.name && a.paramTypes == b.paramTypes

/-- The name with the class in front. -/
def qualifiedName (m : MethodInfo) : String := m.owner ++ "." ++ m.name

end MethodInfo

inductive CallKind
  | method
  | new
  | super
  deriving DecidableEq, Repr, Inhabited

/-- A call in some body, as the caller sees it. -/
structure CallSite where
  id : SiteId
  caller : DeclId
  callee : DeclId
  kind : CallKind
  /-- Absent for static calls and for `new`. -/
  receiver : Option Typed.Expr
  args : List Typed.Expr
  span : Span
  deriving Repr, Inhabited

inductive DeclKind
  | ofClass
  | ofInterface
  | field
  | constructor
  | method
  | initializer
  deriving DecidableEq, Repr, Inhabited

structure Env where
  classes : Table String ClassInfo
  methods : Table DeclId MethodInfo
  fields : Table DeclId FieldInfo
  /-- The names of types. -/
  typeDecls : Table DeclId String
  /-- The classes that own initializer blocks. -/
  initBlocks : Table DeclId String
  /-- The bodies of methods, constructors and initializer blocks. -/
  bodies : Table DeclId (List Typed.Stmt)
  fieldInits : Table DeclId Typed.Expr
  /-- The calls of all bodies by their number. -/
  callSites : Table SiteId CallSite
  /-- For each method the methods that it overrides or implements, nearest first. -/
  overrides : Table DeclId (List DeclId)
  /-- The first number that no declaration has. -/
  nextDecl : DeclId
  deriving Inhabited

namespace Env

/-- The environment of no program, with declarations numbered from `nextDecl` on. -/
def empty (nextDecl : DeclId) : Env where
  classes := .empty
  methods := .empty
  fields := .empty
  typeDecls := .empty
  initBlocks := .empty
  bodies := .empty
  fieldInits := .empty
  callSites := .empty
  overrides := .empty
  nextDecl := nextDecl

def class? (env : Env) (name : String) : Option ClassInfo := env.classes.get? name

def method? (env : Env) (id : DeclId) : Option MethodInfo := env.methods.get? id

def field? (env : Env) (id : DeclId) : Option FieldInfo := env.fields.get? id

def body? (env : Env) (id : DeclId) : Option (List Typed.Stmt) := env.bodies.get? id

def declKind? (env : Env) (id : DeclId) : Option DeclKind :=
  match env.typeDecls.get? id with
  | some name =>
    some (if (env.class? name).any (·.isInterface) then .ofInterface else .ofClass)
  | none =>
    match env.method? id with
    | some m => some (if m.isConstructor then .constructor else .method)
    | none =>
      if env.fields.contains id then some .field
      else if env.initBlocks.contains id then some .initializer
      else none

/-- The class that a declaration belongs to; a type belongs to itself. -/
def ownerOf? (env : Env) (id : DeclId) : Option String :=
  env.typeDecls.get? id
    |>.or ((env.method? id).map (·.owner))
    |>.or ((env.field? id).map (·.owner))
    |>.or (env.initBlocks.get? id)

/-- How messages name a declaration. -/
def describe (env : Env) (id : DeclId) : String :=
  env.typeDecls.get? id
    |>.or ((env.method? id).map (·.qualifiedName))
    |>.or ((env.field? id).map (·.qualifiedName))
    |>.or ((env.initBlocks.get? id).map (· ++ ".<init>"))
    |>.getD ("#" ++ toString id)

/-- The chain of superclasses from `name` on, but none of `seen`, and at most `n` classes. -/
def chainFrom (env : Env) : Nat → List String → String → List ClassInfo
  | 0, _, _ => []
  | n + 1, seen, name =>
    match env.class? name with
    | none => []
    | some info =>
      if seen.contains name then []
      else
        info :: match info.superclass with
          | some s => chainFrom env n (name :: seen) s
          | none => []

/-- The class and its superclasses, from the inside out. No chain has more members than there are
classes. -/
def classChain (env : Env) (name : String) : List ClassInfo :=
  chainFrom env env.classes.size [] name

/-- The types that a type names as its supertypes: the superclass before the interfaces. -/
def directSupertypes (info : ClassInfo) : List String := info.superclass.toList ++ info.interfaces

/-- Breadth-first search along supertypes: visits the names of the queue, but none of `seen`, in
at most `n` steps. Names that belong to no type lead nowhere. -/
def visit (env : Env) : Nat → List String → List String → List String
  | 0, _, _ => []
  | _ + 1, _, [] => []
  | n + 1, seen, name :: queue =>
    if seen.contains name then visit env n seen queue
    else
      match env.class? name with
      | none => visit env n (name :: seen) queue
      | some info => name :: visit env n (name :: seen) (queue ++ directSupertypes info)

/-- How many names can get into the queue of a search. -/
def edgeCount (env : Env) : Nat :=
  (env.classes.values.flatMap directSupertypes).length

/-- A type and all its supertypes, nearest first. -/
def supertypes (env : Env) (name : String) : List String :=
  visit env (env.edgeCount + 1) [] [name]

def isSubtype (env : Env) (sub super_ : String) : Bool :=
  sub == super_ || (env.supertypes sub).contains super_

/-- Whether a value of the first type can stand where the second is asked for. -/
def isAssignable (env : Env) (source target : Ty) : Bool :=
  source == target ||
    match source, target with
    | .null, .ofClass _ | .null, .array _ => true
    | .ofClass a, .ofClass b => env.isSubtype a b
    | _, _ => false

/-- The class that all exceptions extend. -/
def rootException : String := "Throwable"

def isException (env : Env) (name : String) : Bool :=
  (env.class? name).any (!·.isInterface) && env.isSubtype name rootException

/-- The field that a name stands for in a class: its own or one that it inherits. -/
def lookupField? (env : Env) (className name : String) : Option FieldInfo :=
  ((env.classChain className).flatMap (·.fields)).filterMap env.field?
    |>.find? (·.name == name)

/-- The methods of that name that a type has or inherits, nearest first. -/
def lookupMethods (env : Env) (className name : String) : List MethodInfo :=
  (((env.supertypes className).filterMap env.class?).flatMap (·.methods)).filterMap env.method?
    |>.filter (·.name == name)

def constructors (env : Env) (className : String) : List MethodInfo :=
  match env.class? className with
  | some info => info.ctors.filterMap env.method?
  | none => []

/-- The constructor that takes nothing. -/
def defaultConstructor? (env : Env) (className : String) : Option MethodInfo :=
  (env.constructors className).find? (·.params.isEmpty)

/-- The method that runs when `method` is called on an object of class `runtime`: the nearest one
with a body and the same signature. -/
def dispatch (env : Env) (runtime : String) (method : DeclId) : DeclId :=
  match env.method? method with
  | none => method
  | some target =>
    if target.isStatic || target.isConstructor then method
    else
      ((((env.classChain runtime).flatMap (·.methods)).filterMap env.method?).find?
        fun m => m.hasBody && !m.isStatic && m.sameSignature target).elim method (·.id)

/-- The calls in the body of a declaration, by their number. -/
def callSitesOf (env : Env) (id : DeclId) : List CallSite :=
  env.callSites.values.filter (·.caller == id)

end Env

end Covenant
