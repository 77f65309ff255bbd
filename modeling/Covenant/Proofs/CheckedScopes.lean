import Covenant.Proofs.FittedBodies
import Covenant.Proofs.Journeys

/-!
# The scopes that the checker has

Each statement and each expression of a body is checked in a scope. Which one it is
follows the rules: what a declaration declares is in scope for the statements behind
it in its list, what a handler binds is in scope in its block, and nothing else
changes from a statement to the ones in it. `ProgramChecks` says so of all that a
program has, from the scope at the start of a body or of a first value on.
-/

namespace Covenant

open Typed (Expr)

/-- The expressions that a statement evaluates itself, each with its parts. -/
def Typed.Stmt.ownParts : Stmt → List Expr
  | .declare _ _ _ value | .ret _ value => Expr.partsOpt value
  | .setVar _ _ value | .setStatic _ _ _ value | .expr _ value | .throw _ value => value.parts
  | .setField _ object _ value => object.parts ++ value.parts
  | .setIndex _ array index value => array.parts ++ (index.parts ++ value.parts)
  | .branch _ condition _ _ | .loop _ condition _ => condition.parts
  | .superCall _ _ _ args => Expr.partsAll args
  | .attempt .. | .block .. => []

namespace Typing

open Surface (Block Handler)

mutual

/-- In the course of checking a statement in a scope, which makes a typed one, something in it is
checked in a scope. -/
inductive StmtChecks (k : BodyKind) :
    Scope → Surface.Stmt → Typed.Stmt → Scope → Task → Prop
  | self {s c t s' cs} (h : ElabStmt k s c t s' cs) : StmtChecks k s c t s (.stmt t)
  | own {s c t s' cs e} (h : ElabStmt k s c t s' cs) (he : e ∈ t.ownParts) :
      StmtChecks k s c t s (.expr e)
  | thenBranch {s span c c' a a' b b' s₁ w} (h : StmtChecks k s a a' s₁ w) :
      StmtChecks k s (.branch span c a b) (.branch span c' a' b') s₁ w
  | elseBranch {s span c c' a a' b b' s₁ w} (h : StmtChecks k s b b' s₁ w) :
      StmtChecks k s (.branch span c a (some b)) (.branch span c' a' (some b')) s₁ w
  | loop {s span c c' b b' s₁ w} (h : StmtChecks k s b b' s₁ w) :
      StmtChecks k s (.loop span c b) (.loop span c' b') s₁ w
  | attempt {s span body body' handlers handlers' cleanup cleanup' s₁ w}
      (h : StmtsCheck k s body.stmts body' s₁ w) :
      StmtChecks k s (.attempt span body handlers cleanup)
        (.attempt span body' handlers' cleanup') s₁ w
  | handler {s span body body' handlers handlers' cleanup cleanup' s₁ w}
      (h : HandlersCheck k s handlers handlers' s₁ w) :
      StmtChecks k s (.attempt span body handlers cleanup)
        (.attempt span body' handlers' cleanup') s₁ w
  | cleanup {s span body body' handlers handlers' cleanup cleanup' s₁ w}
      (h : StmtsCheck k s cleanup.stmts cleanup' s₁ w) :
      StmtChecks k s (.attempt span body handlers (some cleanup))
        (.attempt span body' handlers' (some cleanup')) s₁ w
  | block {s span body body' s₁ w} (h : StmtsCheck k s body.stmts body' s₁ w) :
      StmtChecks k s (.block span body) (.block span body') s₁ w

inductive StmtsCheck (k : BodyKind) :
    Scope → List Surface.Stmt → List Typed.Stmt → Scope → Task → Prop
  | head {s c c' rest rest' s₁ w} (h : StmtChecks k s c c' s₁ w) :
      StmtsCheck k s (c :: rest) (c' :: rest') s₁ w
  | tail {s c c' rest rest' s' s₁ w cs} (hc : ElabStmt k s c c' s' cs)
      (h : StmtsCheck k s' rest rest' s₁ w) : StmtsCheck k s (c :: rest) (c' :: rest') s₁ w

inductive HandlersCheck (k : BodyKind) :
    Scope → List Handler → List Typed.Handler → Scope → Task → Prop
  | head {s c var body body' rest rest' s₁ w}
      (h : StmtsCheck k (s.add var.val (.ofClass c.val)) body.stmts body' s₁ w) :
      HandlersCheck k s (.mk c var body :: rest) (.mk c.val var.val body' :: rest') s₁ w
  | tail {s h h' rest rest' s₁ w} (hr : HandlersCheck k s rest rest' s₁ w) :
      HandlersCheck k s (h :: rest) (h' :: rest') s₁ w

end

/-- What is checked in the course of checking a whole body. -/
inductive BodyChecks (k : BodyKind) (s : Scope) :
    List Surface.Stmt → List Typed.Stmt → Scope → Task → Prop
  | stmts {stmts stmts' s₁ w} (h : StmtsCheck k s stmts stmts' s₁ w) :
      BodyChecks k s stmts stmts' s₁ w
  | super {span site ctor args args' rest rest' cs} (ha : ElabAll s args args' cs) :
      BodyChecks k s (.superCall span site args :: rest) (.superCall span site ctor args' :: rest')
        s (.stmt (.superCall span site ctor args'))
  | superArgs {span site ctor args args' rest rest' cs e} (ha : ElabAll s args args' cs)
      (he : e ∈ Expr.partsAll args') :
      BodyChecks k s (.superCall span site args :: rest) (.superCall span site ctor args' :: rest')
        s (.expr e)
  | behindSuper {span site ctor args args' rest rest' s₁ w} (h : StmtsCheck k s rest rest' s₁ w) :
      BodyChecks k s (.superCall span site args :: rest) (.superCall span site ctor args' :: rest')
        s₁ w

/-- What is checked in the course of checking a member: its first value or its body. -/
inductive MemberChecks (env : Env) (owner : String) :
    Surface.Member → CheckedBodies → Scope → Task → Prop
  | init {d init info value cs e} (hd : d.init = some init) (hf : env.field? d.id = some info)
      (he : Elab (.ofBody env owner d.id d.isStatic) init value cs) (hmem : e ∈ value.parts) :
      MemberChecks env owner (.field d) ⟨[], [(d.id, value)]⟩
        (.ofBody env owner d.id d.isStatic) (.expr e)
  | body {m d b info ts s w} (hm : m = .constructor d ∨ m = .method d) (hb : d.body = some b)
      (hi : env.method? d.id = some info)
      (h : BodyChecks ⟨info.isConstructor, info.returnType⟩ (.ofMethod env info) b.stmts ts s w) :
      MemberChecks env owner m ⟨[(d.id, ts)], []⟩ s w
  | block {d ts s w}
      (h : BodyChecks ⟨false, .void⟩ (.ofBody env owner d.id false) d.body.stmts ts s w) :
      MemberChecks env owner (.initializer d) ⟨[(d.id, ts)], []⟩ s w

/-- What the checker made of a member is what the environment has. -/
structure StoredIn (env : Env) (part : CheckedBodies) : Prop where
  bodies : ∀ x ∈ part.bodies, env.body? x.1 = some x.2
  inits : ∀ x ∈ part.fieldInits, env.fieldInits.get? x.1 = some x.2

theorem storedIn_body {env : Env} {id : DeclId} {body : List Typed.Stmt}
    (hb : env.body? id = some body) : StoredIn env ⟨[(id, body)], []⟩ :=
  ⟨fun _ hx => List.mem_singleton.mp hx ▸ hb, List.forall_mem_nil _⟩

theorem storedIn_init {env : Env} {id : DeclId} {init : Expr}
    (hi : env.fieldInits.get? id = some init) : StoredIn env ⟨[], [(id, init)]⟩ :=
  ⟨List.forall_mem_nil _, fun _ hx => List.mem_singleton.mp hx ▸ hi⟩

/-- In the course of checking the program, which makes the environment, something in the member
with this number is checked in a scope. -/
inductive ProgramChecks (p : Surface.Program) (env : Env) (decl : DeclId) (s : Scope) (w : Task) :
    Prop
  | intro {env₀ t m part} (declared : env₀.DeclaredBy p) (same : env₀.SameDecls env)
      (type : t ∈ p.types) (member : m ∈ t.members) (id : m.id = decl)
      (stored : StoredIn env part) (checks : MemberChecks env₀ t.name.val m part s w)

section

variable {p : Surface.Program} (hp : p.WellFormed) {env : Env} (h : checkProgram p = .ok env)

include hp h

/-- What is checked in a body is checked from the scope of its parameters on. -/
theorem method_checks {m : MethodInfo} (hm : env.method? m.id = some m) {body : List Typed.Stmt}
    (hb : env.body? m.id = some body) : body = [] ∨
      ∃ env₀ u cs, env₀.DeclaredBy p ∧ env₀.SameDecls env ∧
        ElabBody ⟨m.isConstructor, m.returnType⟩ (.ofMethod env₀ m) u body cs ∧
        ∀ s w, BodyChecks ⟨m.isConstructor, m.returnType⟩ (.ofMethod env₀ m) u body s w →
          ProgramChecks p env m.id s w := by
  rcases body_cases hp h hb with ⟨_, hnil⟩ | ⟨t, mem, hid, hmade⟩
  · exact .inl hnil
  · obtain ⟨d, hmem⟩ := decl_of_method (Env.declaredBy_of_check hp h) hm hmade.type hmade.member hid
    obtain ⟨env₀, cs, h₀, hdecls, hrules, _⟩ := hmade.rules
    generalize hx : m.id = x at hid hrules
    cases hrules with
    | @body _ d b info _ _ hmem hbody hi he hr =>
        obtain rfl : m = info :=
          Option.some.inj ((hm.symm.trans (hdecls.method? m.id)).trans (hx ▸ hi))
        exact .inr ⟨env₀, _, cs, h₀, hdecls, he, fun s w hw => .intro h₀ hdecls hmade.type
          hmade.member hid (storedIn_body (hx ▸ hb)) (.body hmem hbody hi hw)⟩
    | block => rcases hmem with hmem | hmem <;> cases hmem

/-- What is checked in an initializer block is checked from a scope without names on. -/
theorem block_checks {t : Surface.TypeDecl} (ht : t ∈ p.types) {d : Surface.InitBlock}
    (hdin : .initializer d ∈ t.members) {body : List Typed.Stmt} (hb : env.body? d.id = some body) :
    body = [] ∨ ∃ env₀ u cs,
      ElabBody ⟨false, .void⟩ (.ofBody env₀ t.name.val d.id false) u body cs ∧
      ∀ s w, BodyChecks ⟨false, .void⟩ (.ofBody env₀ t.name.val d.id false) u body s w →
        ProgramChecks p env d.id s w := by
  rcases body_cases hp h hb with ⟨_, hnil⟩ | ⟨t', mem, hid, hmade⟩
  · exact .inl hnil
  · obtain ⟨hname, rfl⟩ := member_unique hp hmade.type ht hmade.member hdin hid
    obtain ⟨env₀, cs, h₀, hdecls, hrules, _⟩ := hmade.rules
    generalize hx : d.id = x at hrules
    cases hrules with
    | body hm => rcases hm with hm | hm <;> cases hm
    | block he =>
        rw [hname] at he
        exact .inr ⟨env₀, _, cs, he, fun s w hw => .intro h₀ hdecls ht hdin rfl
          (storedIn_body hb) (.block hw)⟩

/-- A first value is checked in a scope without names. -/
theorem init_checks {id : DeclId} {init : Expr} (hi : env.fieldInits.get? id = some init) {e : Expr}
    (he : e ∈ init.parts) :
    ∃ env₀ c isStatic, ProgramChecks p env id (.ofBody env₀ c id isStatic) (.expr e) := by
  obtain ⟨t, d, rfl, hmade⟩ := init_cases hp h hi
  obtain ⟨env₀, cs, h₀, hdecls, hrules, _⟩ := hmade.rules
  cases hrules with
  | init hinit hinfo hrules _ =>
      exact ⟨env₀, t.name.val, d.isStatic, .intro h₀ hdecls hmade.type hmade.member rfl
        (storedIn_init hi) (.init hinit hinfo hrules he)⟩

end

end Typing

end Covenant
