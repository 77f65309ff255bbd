import Covenant.Typed.Expr

/-!
# Typed statements

Assignments are split by what they write to. `exits` is the analysis behind the
rule that a method with a value must return one: it holds of statements that
control cannot run off the end of.
-/

namespace Covenant.Typed

mutual

inductive Stmt
  | declare (span : Span) (type : Ty) (name : String) (value : Option Expr)
  | setVar (span : Span) (name : String) (value : Expr)
  | setField (span : Span) (object : Expr) (name : String) (value : Expr)
  | setStatic (span : Span) (className name : String) (value : Expr)
  | setIndex (span : Span) (array index value : Expr)
  | expr (span : Span) (value : Expr)
  | branch (span : Span) (condition : Expr) (thenBranch : Stmt) (elseBranch : Option Stmt)
  | loop (span : Span) (condition : Expr) (body : Stmt)
  | ret (span : Span) (value : Option Expr)
  | throw (span : Span) (value : Expr)
  | superCall (span : Span) (site : SiteId) (ctor : DeclId) (args : List Expr)
  | attempt (span : Span) (body : List Stmt) (handlers : List Handler)
      (cleanup : Option (List Stmt))
  | block (span : Span) (body : List Stmt)

/-- A `catch` clause: the class it takes, the name it binds, and what it does. -/
inductive Handler
  | mk (className var : String) (body : List Stmt)

end

namespace Stmt

def span : Stmt → Span
  | declare s _ _ _ | setVar s _ _ | setField s _ _ _ | setStatic s _ _ _ | setIndex s _ _ _
  | expr s _ | branch s _ _ _ | loop s _ _ | ret s _ | throw s _ | superCall s _ _ _
  | attempt s _ _ _ | block s _ => s

def isSuperCall : Stmt → Bool
  | superCall .. => true
  | _ => false

end Stmt

mutual

/-- Whether control never reaches the end of the statement. -/
def Stmt.exits : Stmt → Bool
  | .ret .. | .throw .. => true
  | .block _ body => exitsAll body
  | .branch _ _ a (some b) => a.exits && b.exits
  | .loop _ (.bool _ value) _ => value
  | .attempt _ body handlers cleanup =>
    exitsOpt cleanup || (exitsAll body && exitsHandlers handlers)
  | _ => false

/-- Whether control never runs off the end of the list: it is the last statement that counts. -/
def exitsAll : List Stmt → Bool
  | [] => false
  | [s] => s.exits
  | _ :: s :: rest => exitsAll (s :: rest)

def exitsOpt : Option (List Stmt) → Bool
  | none => false
  | some body => exitsAll body

def exitsHandlers : List Handler → Bool
  | [] => true
  | .mk _ _ body :: rest => exitsAll body && exitsHandlers rest

end

end Covenant.Typed
