import Covenant.Proofs.CallSites
import Covenant.Proofs.Lookups

/-!
# Parts of bodies

Every expression in a body or a first value is what typing made of an expression of
the program. So the rules for one expression hold of all that are ever evaluated: a
creation runs a constructor of its class, and a call with an object in front goes to
a method that the static class of the object has.
-/

namespace Covenant.Typing

/-- Each of some expressions is what typing makes of one, in a scope with these declarations. -/
def Elaborated (env : Env) (parts : List Typed.Expr) : Prop :=
  ∀ t ∈ parts, ∃ s e cs, s.env = env ∧ Elab s e t cs

namespace Elaborated

variable {env : Env} {parts parts' : List Typed.Expr}

theorem nil : Elaborated env [] := fun _ ht => absurd ht List.not_mem_nil

theorem append (h : Elaborated env parts) (h' : Elaborated env parts') : Elaborated env (parts ++ parts') :=
  List.forall_mem_append.mpr ⟨h, h'⟩

theorem cons {s : Scope} {e : Surface.Expr} {t : Typed.Expr} {cs : List CallSite}
    (he : Elab s e t cs) (h : Elaborated s.env parts) : Elaborated s.env (t :: parts) :=
  List.forall_mem_cons.mpr ⟨⟨s, e, cs, rfl, he⟩, h⟩

end Elaborated

mutual

theorem Elab.elaborated {s : Scope} {e : Surface.Expr} {t : Typed.Expr} {cs : List CallSite}
    (h : Elab s e t cs) : Elaborated s.env t.parts := by
  have self {parts : List Typed.Expr} (hparts : Elaborated s.env parts) : Elaborated s.env (t :: parts) :=
    .cons h hparts
  cases h with
  | int | bool | null | this | var | param | ownStatic | classField | staticField | result =>
      exact self .nil
  | ownField _ _ hi => exact self (.cons (.this hi) .nil)
  | binary hl hr => exact self ((Elab.elaborated hl).append (Elab.elaborated hr))
  | index ha _ hi => exact self ((Elab.elaborated ha).append (Elab.elaborated hi))
  | unary he | field he | length he | newArray _ he | old he | spread he =>
      exact self (Elab.elaborated he)
  | new _ _ ha | staticCall ha | classCall _ ha | droppedCall _ _ ha =>
      exact self (ElabAll.elaborated ha)
  | ownCall ha _ _ hi => exact self (.cons (.this hi) (ElabAll.elaborated ha))
  | methodCall ho _ ha => exact self ((Elab.elaborated ho).append (ElabAll.elaborated ha))

theorem ElabAll.elaborated {s : Scope} {es : List Surface.Expr} {ts : List Typed.Expr}
    {cs : List CallSite} (h : ElabAll s es ts cs) : Elaborated s.env (Typed.Expr.partsAll ts) := by
  cases h with
  | nil => exact .nil
  | cons he hes => exact (Elab.elaborated he).append (ElabAll.elaborated hes)

end

mutual

theorem ElabStmt.elaborated {k : BodyKind} {s s' : Scope} {c : Surface.Stmt} {t : Typed.Stmt}
    {cs : List CallSite} (h : ElabStmt k s c t s' cs) : Elaborated s.env t.parts := by
  cases h with
  | declare | retVoid => exact .nil
  | declareInit _ hv | setVar hv | setStatic hv | expr hv | ret _ hv | throw hv => exact hv.elaborated
  | setField hv ht => exact Elaborated.append (List.forall_mem_cons.mp ht.elaborated).2 hv.elaborated
  | setIndex hv ht =>
      have hai := List.forall_mem_append.mp (List.forall_mem_cons.mp ht.elaborated).2
      exact Elaborated.append hai.1 (Elaborated.append hai.2 hv.elaborated)
  | branch hc _ ha hb => exact hc.elaborated.append ((ElabStmt.elaborated ha).append (ElabElse.elaborated hb))
  | loop hc _ hb => exact hc.elaborated.append (ElabStmt.elaborated hb)
  | attempt hb hh hc =>
      exact (ElabStmts.elaborated hb).append ((ElabHandlers.elaborated hh).append (ElabCleanup.elaborated hc))
  | block hb => exact ElabStmts.elaborated hb

theorem ElabElse.elaborated {k : BodyKind} {s : Scope} {c : Option Surface.Stmt}
    {t : Option Typed.Stmt} {cs : List CallSite} (h : ElabElse k s c t cs) :
    Elaborated s.env (Typed.elseParts t) := by
  cases h with
  | none => exact .nil
  | some hb => exact ElabStmt.elaborated hb

theorem ElabStmts.elaborated {k : BodyKind} {s : Scope} {cs : List Surface.Stmt}
    {ts : List Typed.Stmt} {ds : List CallSite} (h : ElabStmts k s cs ts ds) :
    Elaborated s.env (Typed.stmtsParts ts) := by
  cases h with
  | nil => exact .nil
  | cons hc hr =>
      -- The statements behind the first one stand in a scope inside this one.
      have henv := (ElabStmt.calls hc).1.env
      exact (ElabStmt.elaborated hc).append (henv ▸ ElabStmts.elaborated hr)

theorem ElabCleanup.elaborated {k : BodyKind} {s : Scope} {b : Option Surface.Block}
    {t : Option (List Typed.Stmt)} {cs : List CallSite} (h : ElabCleanup k s b t cs) :
    Elaborated s.env (Typed.cleanupParts t) := by
  cases h with
  | none => exact .nil
  | some hb => exact ElabStmts.elaborated hb

theorem ElabHandlers.elaborated {k : BodyKind} {s : Scope} {hs : List Surface.Handler}
    {ts : List Typed.Handler} {cs : List CallSite} (h : ElabHandlers k s hs ts cs) :
    Elaborated s.env (Typed.handlersParts ts) := by
  cases h with
  | nil => exact .nil
  | cons _ _ hb hr =>
      have hbody := ElabStmts.elaborated hb
      exact Elaborated.append (show Elaborated s.env _ from hbody) (ElabHandlers.elaborated hr)

end

theorem ElabBody.elaborated {k : BodyKind} {s : Scope} {stmts : List Surface.Stmt}
    {ts : List Typed.Stmt} {cs : List CallSite} (h : ElabBody k s stmts ts cs) :
    Elaborated s.env (Typed.stmtsParts ts) := by
  cases h with
  | plain hs => exact hs.elaborated
  | super _ _ _ ha _ hr => exact ha.elaborated.append hr.elaborated

section

variable {p : Surface.Program} (hp : p.WellFormed) {env : Env} (h : checkProgram p = .ok env)
  {decl : DeclId}

include hp h

/-- What is in a body or a first value was made of an expression of the program. -/
theorem elaborated_part {t : Typed.Expr} (ht : t ∈ env.partsOf decl) :
    ∃ s e cs, s.env.DeclaredBy p ∧ s.env.SameDecls env ∧ Elab s e t cs := by
  have found {env₀ : Env} {parts : List Typed.Expr} (h₀ : env₀.DeclaredBy p)
      (hdecls : env₀.SameDecls env) (hparts : Elaborated env₀ parts) (ht : t ∈ parts) :
      ∃ s e cs, s.env.DeclaredBy p ∧ s.env.SameDecls env ∧ Elab s e t cs := by
    obtain ⟨s, e, cs, rfl, he⟩ := hparts t ht
    exact ⟨s, e, cs, h₀, hdecls, he⟩
  rcases List.mem_append.mp ht with hbody | hinit
  · cases hb : env.body? decl with
    | none =>
        rw [hb] at hbody
        exact absurd hbody List.not_mem_nil
    | some body =>
        rw [hb] at hbody
        rcases body_cases hp h hb with ⟨_, rfl⟩ | ⟨_, _, _, hmade⟩
        · exact absurd hbody List.not_mem_nil
        · obtain ⟨env₀, _, h₀, hdecls, hm, _⟩ := hmade.rules
          cases hm with
          | body _ _ _ he => exact found h₀ hdecls he.elaborated hbody
          | block he => exact found h₀ hdecls he.elaborated hbody
  · cases hi : env.fieldInits.get? decl with
    | none =>
        rw [hi] at hinit
        exact absurd hinit List.not_mem_nil
    | some init =>
        rw [hi] at hinit
        obtain ⟨_, _, _, hmade⟩ := init_cases hp h hi
        obtain ⟨env₀, _, h₀, hdecls, hm, _⟩ := hmade.rules
        cases hm with
        | init _ _ he => exact found h₀ hdecls he.elaborated hinit

/-- A creation runs a constructor of the class that it names. -/
theorem constructor_of_part {span : Span} {site : SiteId} {className : String} {ctor : DeclId}
    {args : List Typed.Expr} (he : .new span site className ctor args ∈ env.partsOf decl) :
    ∃ m, env.method? ctor = some m ∧ m.owner = className ∧ m.isConstructor = true := by
  obtain ⟨s, _, _, h₀, hdecls, helaborated⟩ := elaborated_part hp h he
  cases helaborated with
  | new _ _ _ hm =>
      obtain ⟨hget, howner, hc, _⟩ := h₀.mem_constructors (selectOverload?_ok hm).1
      exact ⟨_, (hdecls.method? _).trans hget, howner, hc⟩

/-- A call goes to a method, with an object in front to one that the static class of the object
has. -/
theorem method_of_part {span : Span} {type : Ty} {site : SiteId} {receiver : Option Typed.Expr}
    {method : DeclId} {name : String} {args : List Typed.Expr}
    (he : .call span type site receiver method name args ∈ env.partsOf decl) :
    ∃ m, env.method? method = some m ∧ m.id = method ∧ m.isConstructor = false ∧
      ∀ e, receiver = some e →
        m.isStatic = false ∧ ∃ c, e.type = .ofClass c ∧ env.isSubtype c m.owner = true := by
  obtain ⟨s, _, _, h₀, hdecls, helaborated⟩ := elaborated_part hp h he
  have selected {c name : String} {types : List Ty} {m : MethodInfo}
      (hm : selectOverload? s.env (s.env.lookupMethods c name) types = some m) :
      env.method? m.id = some m ∧ m.isConstructor = false ∧ env.isSubtype c m.owner = true := by
    obtain ⟨hget, hc, hsub, _⟩ := h₀.mem_lookupMethods.mp (selectOverload?_ok hm).1
    rw [Env.isSubtype, ← Env.supertypes_congr hdecls.classes] at hsub
    exact ⟨(hdecls.method? _).trans hget, hc, hsub⟩
  cases helaborated with
  | staticCall _ hm hs | classCall _ _ hm hs | droppedCall _ _ _ hm hs =>
      obtain ⟨hget, hc, _⟩ := selected hm
      exact ⟨_, hget, rfl, hc, fun _ h => by cases h⟩
  | ownCall _ hm hs =>
      obtain ⟨hget, hc, hsub⟩ := selected hm
      refine ⟨_, hget, rfl, hc, ?_⟩
      rintro _ ⟨⟩
      exact ⟨hs, _, rfl, hsub⟩
  | methodCall _ ht _ hm hs =>
      obtain ⟨hget, hc, hsub⟩ := selected hm
      refine ⟨_, hget, rfl, hc, ?_⟩
      rintro _ ⟨⟩
      exact ⟨hs, _, ht, hsub⟩

end

end Covenant.Typing
