import Covenant.Env.Basic
import Covenant.Surface.Decl
import Covenant.Fault.Typing

/-!
# Declarations

How the environment of a program comes about: the built-in exceptions, then the
types with their supertypes, then the members. Bodies are not looked at. Of
several faults the first one in this order is reported.
-/

namespace Covenant

abbrev Checked := Except (Located TypingFault)

def typingFault {α : Type} (fault : TypingFault) (span : Span) : Checked α :=
  .error ⟨fault, span⟩

namespace Env

open Surface (TypeExpr TypeDecl MethodDecl Member Program)

/-- The exceptions that every program knows, each with what it extends. -/
def builtinExceptions : List (String × Option String) :=
  [("Throwable", none),
    ("Exception", some "Throwable"),
    ("RuntimeException", some "Exception"),
    ("IllegalArgumentException", some "RuntimeException"),
    ("IllegalStateException", some "RuntimeException"),
    ("NullPointerException", some "RuntimeException"),
    ("ArithmeticException", some "RuntimeException"),
    ("ArrayIndexOutOfBoundsException", some "RuntimeException"),
    ("UnsupportedOperationException", some "RuntimeException")]

/-- A constructor that takes nothing and has an empty body. -/
def emptyConstructor (id : DeclId) (owner : String) (span : Span) : MethodInfo where
  id := id
  name := owner
  owner := owner
  params := []
  returnType := .void
  isStatic := false
  isConstructor := true
  hasBody := true
  span := span

/-- Adds a built-in exception: a number for the class, the next one for its constructor. -/
def addException (env : Env) (name : String) (superclass : Option String) : Env :=
  let id := env.nextDecl
  let ctor := id + 1
  { env with
    nextDecl := id + 2
    methods := env.methods.insert ctor (emptyConstructor ctor name (.point 0))
    bodies := env.bodies.insert ctor []
    typeDecls := env.typeDecls.insert id name
    classes := env.classes.insert name {
      id, name, superclass
      isInterface := false
      isBuiltin := true
      interfaces := []
      fields := []
      methods := []
      ctors := [ctor]
      initOrder := []
      span := .point 0 } }

def addExceptions (env : Env) : Env :=
  builtinExceptions.foldl (fun env (name, superclass) => env.addException name superclass) env

/-- Adds a type without its members. -/
def addType (env : Env) (t : TypeDecl) : Checked Env := do
  if env.classes.contains t.name.val then
    typingFault (.typeTwice t.name.val) t.name.span
  return { env with
    typeDecls := env.typeDecls.insert t.id t.name.val
    classes := env.classes.insert t.name.val {
      id := t.id
      name := t.name.val
      isInterface := t.kind = .ofInterface
      isBuiltin := false
      superclass := t.superclass.map (·.val)
      interfaces := t.interfaces.map (·.val)
      fields := []
      methods := []
      ctors := []
      initOrder := []
      span := t.span } }

/-- A superclass is a known class. -/
def checkSuperclass (env : Env) (name : Located String) : Checked Unit :=
  match env.class? name.val with
  | none => typingFault (.unknownClass name.val) name.span
  | some info =>
    if info.isInterface then typingFault (.extendsInterface name.val) name.span else .ok ()

def checkInterface (env : Env) (name : Located String) : Checked Unit :=
  match env.class? name.val with
  | none => typingFault (.unknownInterface name.val) name.span
  | some info =>
    if info.isInterface then .ok () else typingFault (.implementsClass name.val) name.span

def checkHeader (env : Env) (t : TypeDecl) : Checked Unit := do
  if let some name := t.superclass then
    env.checkSuperclass name
  t.interfaces.forM env.checkInterface

/-- Whether a type reaches itself along supertypes. -/
def isCyclic (env : Env) (name : String) : Bool :=
  ((env.class? name).map directSupertypes).getD [] |>.any fun s => (env.supertypes s).contains name

def checkAcyclic (env : Env) (t : TypeDecl) : Checked Unit :=
  if env.isCyclic t.name.val then typingFault (.inheritanceCycle t.name.val) t.name.span
  else .ok ()

def addTypes (env : Env) (p : Program) : Checked Env := do
  let env ← p.types.foldlM addType env
  p.types.forM env.checkHeader
  p.types.forM env.checkAcyclic
  return env

/-- The type that a type expression stands for. -/
def resolveType (env : Env) : TypeExpr → Checked Ty
  | .int _ => .ok .int
  | .boolean _ => .ok .boolean
  | .named span name =>
    if env.classes.contains name then .ok (.ofClass name)
    else typingFault (.unknownType name) span
  | .array _ elem => Ty.array <$> env.resolveType elem

/-- The types of parameters, whose names all differ; `seen` are the names in front. -/
def resolveParams (env : Env) (seen : List String) :
    List Surface.Param → Checked (List (String × Ty))
  | [] => .ok []
  | p :: ps => do
    if seen.contains p.name.val then
      typingFault (.paramTwice p.name.val) p.name.span
    let type ← env.resolveType p.type
    let rest ← resolveParams env (p.name.val :: seen) ps
    return (p.name.val, type) :: rest

def methodInfo (env : Env) (owner : String) (d : MethodDecl) : Checked MethodInfo := do
  let params ← env.resolveParams [] d.params
  let returnType ← match d.returnType with
    | some t => env.resolveType t
    | none => pure .void
  return {
    id := d.id
    name := d.name.val
    owner, params, returnType
    isStatic := d.isStatic
    isConstructor := d.isConstructor
    hasBody := d.body.isSome
    span := d.name.span }

/-- The members of one type, as far as they have been read. -/
structure MemberList where
  fields : List FieldInfo := []
  methods : List MethodInfo := []
  ctors : List MethodInfo := []
  initOrder : List InitItem := []
  blocks : List DeclId := []

def addMember (env : Env) (owner : String) (ms : MemberList) : Member → Checked MemberList
  | .field d => do
    if ms.fields.any (·.name == d.name.val) then
      typingFault (.fieldTwice d.name.val owner) d.name.span
    let type ← env.resolveType d.type
    let field : FieldInfo :=
      { id := d.id, name := d.name.val, owner, type, isStatic := d.isStatic, span := d.name.span }
    let init := if !d.isStatic && d.init.isSome then [InitItem.field d.id] else []
    return { ms with fields := ms.fields ++ [field], initOrder := ms.initOrder ++ init }
  | .constructor d => do
    let info ← env.methodInfo owner d
    if ms.ctors.any (·.sameSignature info) then
      typingFault (.constructorTwice owner) info.span
    return { ms with ctors := ms.ctors ++ [info] }
  | .method d => do
    let info ← env.methodInfo owner d
    if ms.methods.any (·.sameSignature info) then
      typingFault (.methodTwice info.name owner) info.span
    if info.isStatic && !info.hasBody then
      typingFault .staticWithoutBody info.span
    return { ms with methods := ms.methods ++ [info] }
  | .initializer d =>
    return { ms with initOrder := ms.initOrder ++ [.block d.id], blocks := ms.blocks ++ [d.id] }

/-- Adds the members of a type. A class that declares no constructor has an empty one. -/
def addMembers (env : Env) (t : TypeDecl) : Checked Env := do
  let owner := t.name.val
  let ms ← t.members.foldlM (env.addMember owner) {}
  let (env, ctors) :=
    if t.kind = .ofClass && ms.ctors.isEmpty then
      let id := env.nextDecl
      ({ env with nextDecl := id + 1, bodies := env.bodies.insert id [] },
        [emptyConstructor id owner t.name.span])
    else (env, ms.ctors)
  match env.class? owner with
  | none => return env
  | some info =>
    return { env with
      classes := env.classes.insert owner { info with
        fields := ms.fields.map (·.id)
        methods := ms.methods.map (·.id)
        ctors := ctors.map (·.id)
        initOrder := ms.initOrder }
      fields := env.fields.insertAll (ms.fields.map fun f => (f.id, f))
      methods := env.methods.insertAll ((ms.methods ++ ctors).map fun m => (m.id, m))
      initBlocks := env.initBlocks.insertAll (ms.blocks.map fun id => (id, owner)) }

/-- No field has the name of one that its class inherits. -/
def checkHiding (env : Env) (info : ClassInfo) : Checked Unit :=
  let inherited :=
    (((env.classChain info.name).drop 1).flatMap (·.fields)).filterMap env.field?
  (info.fields.filterMap env.field?).forM fun f =>
    if inherited.any (·.name == f.name) then typingFault (.hiddenField f.name) f.span else .ok ()

/-- Whether `m` overrides `base`, if they stand in a type and one of its supertypes. -/
def overridden (m base : MethodInfo) : Bool := !base.isStatic && base.sameSignature m

/-- The methods that `m` overrides, nearest first; they return what `m` returns. -/
def basesOf (env : Env) (m : MethodInfo) : Checked (List DeclId) := do
  let supers := (env.supertypes m.owner).drop 1
  let bases := ((supers.filterMap env.class?).flatMap (·.methods)).filterMap env.method?
    |>.filter (overridden m)
  bases.forM fun base =>
    if base.returnType != m.returnType then
      typingFault (.overrideReturn m.qualifiedName base.qualifiedName) m.span
    else .ok ()
  return bases.map (·.id)

/-- Notes what the methods of a type override. -/
def addOverrides (env : Env) (info : ClassInfo) : Checked Env :=
  (info.methods.filterMap env.method?).foldlM (fun env m => do
    if m.isStatic then
      return env
    let bases ← env.basesOf m
    return if bases.isEmpty then env
      else { env with overrides := env.overrides.insert m.id bases }) env

/-- The environment of the declarations of a program. -/
def declare (p : Program) : Checked Env := do
  let env ← (empty p.declCount).addExceptions.addTypes p
  let env ← p.types.foldlM addMembers env
  env.classes.values.forM env.checkHiding
  env.classes.values.foldlM addOverrides env

end Env

end Covenant
