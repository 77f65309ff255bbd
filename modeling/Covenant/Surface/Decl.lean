import Covenant.Surface.Expr

/-!
# Parsed statements and declarations

A program is a list of classes and interfaces. Declarations are numbered in the
order in which they are met, a type before its members; later passes hang what
they find out about a declaration on its number.
-/

namespace Covenant.Surface

mutual

inductive Stmt
  | declare (span : Span) (type : TypeExpr) (name : Located String) (value : Option Expr)
  | assign (span : Span) (target value : Expr)
  | expr (span : Span) (value : Expr)
  | branch (span : Span) (condition : Expr) (thenBranch : Stmt) (elseBranch : Option Stmt)
  | loop (span : Span) (condition : Expr) (body : Stmt)
  | ret (span : Span) (value : Option Expr)
  | throw (span : Span) (value : Expr)
  | superCall (span : Span) (site : SiteId) (args : List Expr)
  | attempt (span : Span) (body : Block) (handlers : List Handler) (cleanup : Option Block)
  | block (span : Span) (body : Block)

inductive Block
  | mk (span : Span) (stmts : List Stmt)

/-- A `catch` clause: the class it takes, the name it binds, and what it does. -/
inductive Handler
  | mk (className var : Located String) (body : Block)

end

namespace Stmt

def span : Stmt → Span
  | declare s _ _ _ | assign s _ _ | expr s _ | branch s _ _ _ | loop s _ _ | ret s _ | throw s _
  | superCall s _ _ | attempt s _ _ _ | block s _ => s

end Stmt

namespace Block

def span : Block → Span
  | mk s _ => s

def stmts : Block → List Stmt
  | mk _ ss => ss

end Block

/-- The text of a documentation comment, delimiters included. -/
structure DocComment where
  text : String
  span : Span
  deriving DecidableEq, Repr, Inhabited

structure Param where
  name : Located String
  type : TypeExpr
  deriving DecidableEq, Repr, Inhabited

structure FieldDecl where
  id : DeclId
  doc : Option DocComment
  isStatic : Bool
  type : TypeExpr
  name : Located String
  init : Option Expr
  span : Span

structure MethodDecl where
  id : DeclId
  doc : Option DocComment
  isStatic : Bool
  isConstructor : Bool
  /-- Absent for `void` methods and for constructors. -/
  returnType : Option TypeExpr
  name : Located String
  params : List Param
  /-- Absent for methods that are only declared. -/
  body : Option Block
  span : Span

structure InitBlock where
  id : DeclId
  doc : Option DocComment
  body : Block
  span : Span

inductive Member
  | field (decl : FieldDecl)
  | constructor (decl : MethodDecl)
  | method (decl : MethodDecl)
  | initializer (decl : InitBlock)

namespace Member

def id : Member → DeclId
  | field d => d.id
  | constructor d | method d => d.id
  | initializer d => d.id

def doc : Member → Option DocComment
  | field d => d.doc
  | constructor d | method d => d.doc
  | initializer d => d.doc

def span : Member → Span
  | field d => d.span
  | constructor d | method d => d.span
  | initializer d => d.span

end Member

inductive TypeKind
  | ofClass
  | ofInterface
  deriving DecidableEq, Repr, Inhabited

structure TypeDecl where
  id : DeclId
  kind : TypeKind
  name : Located String
  superclass : Option (Located String)
  /-- What a class implements, or what an interface extends. -/
  interfaces : List (Located String)
  doc : Option DocComment
  members : List Member
  span : Span

structure Program where
  types : List TypeDecl
  /-- Declaration numbers from here on are free. -/
  declCount : Nat
  /-- Call site numbers from here on are free. -/
  siteCount : Nat

end Covenant.Surface
