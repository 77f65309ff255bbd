import Covenant.Proofs.TypedMachine
import Covenant.Proofs.Elaborated

/-!
# Well-typed expressions and statements

The type system of typed programs, without the names that the checker resolved. A
context says what the names of an expression stand for, and an expression fits it
if every part of it is used at its type: this is what evaluation relies on, and
nothing else of how an expression came about. Clauses and bodies are judged alike;
the forms that only clauses know fit where the context has them.
-/

namespace Covenant

namespace Typed

/-- What the names of an expression stand for, and which forms it may have. -/
structure Context where
  /-- The class of `this`, where there is one. -/
  this : Option String
  /-- The local variables, the newest first. -/
  locals : List (String × Ty)
  /-- The types of what was passed, which clauses read. -/
  params : List Ty
  result : Option Ty
  /-- The types of the entry values that are stored. -/
  slots : List Ty
  hasOld : Bool
  hasSpread : Bool

/-- A context where everything that occurs can be evaluated. -/
def Context.ofBody (this : Option String) (locals : List (String × Ty)) : Context where
  this := this
  locals := locals
  params := []
  result := none
  slots := []
  hasOld := false
  hasSpread := false

/-- One more variable. -/
def Context.bind (Γ : Context) (name : String) (type : Ty) : Context :=
  { Γ with locals := (name, type) :: Γ.locals }

/-- What is written down for a site is that it calls this member. -/
def SiteOf (env : Env) (site : SiteId) (callee : DeclId) : Prop :=
  ∀ c, env.callSites.get? site = some c → c.callee = callee

/-- Each argument can stand for its parameter. -/
def ArgsFit (env : Env) (args : List Expr) (types : List Ty) : Prop :=
  List.Forall₂ (fun (e : Expr) t => env.isAssignable e.type t = true) args types

/-- A call of a method: its arguments fit, and it has a receiver just if the method works on an
object. -/
structure CallTyped (env : Env) (m : MethodInfo) (type : Ty) (site : SiteId)
    (receiver : Option Expr) (id : DeclId) (name : String) (args : List Expr) : Prop where
  method : env.method? id = some m
  isMethod : m.isConstructor = false
  name : m.name = name
  type : m.returnType = type
  args : ArgsFit env args m.paramTypes
  static : receiver = none → m.isStatic = true
  receiver : ∀ e, receiver = some e →
    m.isStatic = false ∧ ∃ c, e.type = .ofClass c ∧ env.isSubtype c m.owner = true
  site : SiteOf env site id

/-- A call of a constructor of a class. -/
structure ConstructorTyped (env : Env) (m : MethodInfo) (className : String) (site : SiteId)
    (id : DeclId) (args : List Expr) : Prop where
  method : env.method? id = some m
  isConstructor : m.isConstructor = true
  isInstance : m.isStatic = false
  owner : m.owner = className
  args : ArgsFit env args m.paramTypes
  site : SiteOf env site id

mutual

/-- Whether all parts of an expression are used at their types. -/
def Expr.Fits (env : Env) (Γ : Context) : Expr → Prop
  | .int .. | .bool .. | .null _ => True
  | .this _ c => ∃ d, Γ.this = some d ∧ env.isSubtype d c = true
  | .var _ t name => Γ.locals.lookup name = some t
  | .param _ t i _ => Γ.params[i]? = some t
  | .field _ t o name => o.Fits env Γ ∧ ∃ c f, o.type = .ofClass c ∧
      env.lookupField? c name = some f ∧ f.isStatic = false ∧ f.type = t
  | .staticField _ t c name => ∃ f, env.lookupField? c name = some f ∧ f.isStatic = true ∧
      f.type = t
  | .length _ a => a.Fits env Γ ∧ ∃ e, a.type = .array e
  | .index _ t a i => (a.Fits env Γ ∧ a.type = .array t) ∧ i.Fits env Γ ∧ i.type = .int
  | .binary _ op l r => (l.Fits env Γ ∧ r.Fits env Γ) ∧ Typing.OperandsFit env op l.type r.type
  | .unary _ op e => e.Fits env Γ ∧ e.type = operandType op
  | .call _ t site receiver id name args => (receiverFits env Γ receiver ∧ argsFit env Γ args) ∧
      ∃ m, CallTyped env m t site receiver id name args
  | .new _ site c id args => argsFit env Γ args ∧ ∃ m, ConstructorTyped env m c site id args
  | .newArray _ elem len => (len.Fits env Γ ∧ len.type = .int) ∧ elem.Stored
  | .old _ e => Γ.hasOld = true ∧ e.Fits env { Γ with hasOld := false }
  | .result _ t => Γ.result = some t
  | .spread _ e => Γ.hasSpread = true ∧ e.Fits env Γ
  | .slot _ t n => Γ.slots[n]? = some t

def Expr.receiverFits (env : Env) (Γ : Context) : Option Expr → Prop
  | none => True
  | some e => e.Fits env Γ

def Expr.argsFit (env : Env) (Γ : Context) : List Expr → Prop
  | [] => True
  | e :: es => e.Fits env Γ ∧ Expr.argsFit env Γ es

end

theorem Expr.fits_of_mem {env : Env} {Γ : Context} {es : List Expr} (h : argsFit env Γ es)
    {e : Expr} (he : e ∈ es) : e.Fits env Γ := by
  induction es with
  | nil => exact absurd he List.not_mem_nil
  | cons x es ih =>
      rcases List.mem_cons.mp he with rfl | he
      · exact h.1
      · exact ih h.2 he

theorem ArgsFit.getElem? {env : Env} {es : List Expr} {ts : List Ty} (h : ArgsFit env es ts)
    {i : Nat} {e : Expr} {t : Ty} (he : es[i]? = some e) (ht : ts[i]? = some t) :
    env.isAssignable e.type t = true := by
  obtain ⟨hi, rfl⟩ := List.getElem?_eq_some_iff.mp he
  obtain ⟨hj, rfl⟩ := List.getElem?_eq_some_iff.mp ht
  exact List.Forall₂.get h hi hj

/-- The variable that a statement declares for those behind it. -/
def Stmt.binds : Stmt → List (String × Ty)
  | .declare _ t name _ => [(name, t)]
  | _ => []

/-- The context of the statements behind one. -/
def Context.after (Γ : Context) (s : Stmt) : Context := { Γ with locals := s.binds ++ Γ.locals }

/-- An expression that can stand for a value of the type. -/
def Expr.FitsAt (env : Env) (Γ : Context) (e : Expr) (t : Ty) : Prop :=
  e.Fits env Γ ∧ env.isAssignable e.type t = true

mutual

/-- Whether a statement of a body that returns values of some type uses everything at its type. -/
def Stmt.Fits (env : Env) (ret : Ty) (Γ : Context) : Stmt → Prop
  | .declare _ t _ v => t.Stored ∧ ∀ e, v = some e → e.FitsAt env Γ t
  | .setVar _ name v => ∃ t, Γ.locals.lookup name = some t ∧ v.FitsAt env Γ t
  | .setField _ o name v => o.Fits env Γ ∧ ∃ c f, o.type = .ofClass c ∧
      env.lookupField? c name = some f ∧ v.FitsAt env Γ f.type
  | .setStatic _ c name v => ∃ f, env.lookupField? c name = some f ∧ f.isStatic = true ∧
      v.FitsAt env Γ f.type
  | .setIndex _ a i v => (a.Fits env Γ ∧ i.Fits env Γ ∧ i.type = .int) ∧
      ∃ t, a.type = .array t ∧ v.FitsAt env Γ t
  | .expr _ e => e.Fits env Γ
  | .branch _ c a b => (c.Fits env Γ ∧ c.type = .boolean) ∧ a.Fits env ret Γ ∧
      Stmt.elseFits env ret Γ b
  | .loop _ c b => (c.Fits env Γ ∧ c.type = .boolean) ∧ b.Fits env ret Γ
  | .ret _ v => (v = none → ret = .void) ∧ ∀ e, v = some e → e.FitsAt env Γ ret
  | .throw _ e => e.Fits env Γ ∧ ∃ c, e.type = .ofClass c
  | .superCall .. => True
  | .attempt _ body handlers cleanup => Stmt.allFit env ret Γ body ∧
      Stmt.handlersFit env ret Γ handlers ∧ Stmt.cleanupFits env ret Γ cleanup
  | .block _ body => Stmt.allFit env ret Γ body

def Stmt.elseFits (env : Env) (ret : Ty) (Γ : Context) : Option Stmt → Prop
  | none => True
  | some s => s.Fits env ret Γ

def Stmt.allFit (env : Env) (ret : Ty) (Γ : Context) : List Stmt → Prop
  | [] => True
  | s :: rest => s.Fits env ret Γ ∧ Stmt.allFit env ret (Γ.after s) rest

def Stmt.handlersFit (env : Env) (ret : Ty) (Γ : Context) : List Handler → Prop
  | [] => True
  | .mk c var body :: rest => Stmt.allFit env ret (Γ.bind var (.ofClass c)) body ∧
      Stmt.handlersFit env ret Γ rest

def Stmt.cleanupFits (env : Env) (ret : Ty) (Γ : Context) : Option (List Stmt) → Prop
  | none => True
  | some body => Stmt.allFit env ret Γ body

end

end Typed

end Covenant
