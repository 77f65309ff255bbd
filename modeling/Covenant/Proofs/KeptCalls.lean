import Covenant.Proofs.CallSites
import Covenant.Proofs.CheckedMembers

/-!
# Calls that typing keeps

A call that stands in the source stands in the typed program, under its number, as
long as the expression around it does. Typing leaves out one kind of expression:
the object that a static member is selected from, which may be the name of a class
or any other expression. So the calls of a parsed body are those of the typed one
together with those of the objects that were left out.
-/

namespace Covenant

/-- A call or a creation as both trees show it: its number, what it is, the word that it names and
where it stands. -/
structure CallMark where
  site : SiteId
  kind : CallKind
  name : String
  span : Span
  deriving DecidableEq, Repr

namespace Surface

mutual

/-- The calls and creations of an expression, in the order of their numbers. -/
def Expr.calls : Expr → List CallMark
  | .int .. | .bool .. | .null .. | .this .. | .name .. | .result .. => []
  | .binary _ _ l r => l.calls ++ r.calls
  | .unary _ _ e | .field _ e _ | .newArray _ _ e | .old _ e | .spread _ e => e.calls
  | .index _ a i => a.calls ++ i.calls
  | .call span site name args => ⟨site, .method, name.val, span⟩ :: callsAll args
  | .new span site name args => ⟨site, .new, name.val, span⟩ :: callsAll args
  | .methodCall span site o name args =>
    o.calls ++ ⟨site, .method, name.val, span⟩ :: callsAll args

def callsAll : List Expr → List CallMark
  | [] => []
  | e :: es => e.calls ++ callsAll es

end

mutual

/-- The calls and creations of a statement. -/
def Stmt.calls : Stmt → List CallMark
  | .declare _ _ _ value | .ret _ value => valueCalls value
  | .assign _ target value => target.calls ++ value.calls
  | .expr _ value | .throw _ value => value.calls
  | .branch _ condition a b => condition.calls ++ (a.calls ++ elseCalls b)
  | .loop _ condition body => condition.calls ++ body.calls
  | .superCall _ _ args => callsAll args
  | .attempt _ body handlers cleanup =>
    body.calls ++ (handlersCalls handlers ++ cleanupCalls cleanup)
  | .block _ body => body.calls

def valueCalls : Option Expr → List CallMark
  | none => []
  | some e => e.calls

def elseCalls : Option Stmt → List CallMark
  | none => []
  | some s => s.calls

def Block.calls : Block → List CallMark
  | .mk _ stmts => stmtsCalls stmts

def cleanupCalls : Option Block → List CallMark
  | none => []
  | some b => b.calls

def stmtsCalls : List Stmt → List CallMark
  | [] => []
  | s :: rest => s.calls ++ stmtsCalls rest

def handlersCalls : List Handler → List CallMark
  | [] => []
  | .mk _ _ body :: rest => body.calls ++ handlersCalls rest

end

/-! ## Marks and numbers -/

mutual

theorem Expr.map_calls (e : Expr) : e.calls.map (·.site) = e.sites := by
  match e with
  | .int .. | .bool .. | .null .. | .this .. | .name .. | .result .. => rfl
  | .binary _ _ l r => simp [Expr.calls, Expr.sites, Expr.map_calls l, Expr.map_calls r]
  | .unary _ _ x | .field _ x _ | .newArray _ _ x | .old _ x | .spread _ x =>
      simp [Expr.calls, Expr.sites, Expr.map_calls x]
  | .index _ a i => simp [Expr.calls, Expr.sites, Expr.map_calls a, Expr.map_calls i]
  | .call _ _ _ args | .new _ _ _ args => simp [Expr.calls, Expr.sites, map_callsAll args]
  | .methodCall _ _ o _ args =>
      simp [Expr.calls, Expr.sites, Expr.map_calls o, map_callsAll args]

theorem map_callsAll (es : List Expr) : (callsAll es).map (·.site) = sitesAll es := by
  match es with
  | [] => rfl
  | e :: es => simp [callsAll, sitesAll, Expr.map_calls e, map_callsAll es]

end

theorem map_valueCalls (v : Option Expr) : (valueCalls v).map (·.site) = valueSites v := by
  cases v with
  | none => rfl
  | some e => exact e.map_calls

mutual

/-- The numbers of a statement are those of its calls and creations, and of a call of a constructor
of the superclass. -/
theorem Stmt.calls_sublist (s : Stmt) : (s.calls.map (·.site)).Sublist s.sites := by
  match s with
  | .declare _ _ _ v | .ret _ v => exact (map_valueCalls v).symm ▸ List.Sublist.refl _
  | .assign _ target v =>
      simp only [Stmt.calls, Stmt.sites, List.map_append, Expr.map_calls]
      exact List.Sublist.refl _
  | .expr _ v | .throw _ v => exact v.map_calls.symm ▸ List.Sublist.refl _
  | .branch _ c a b =>
      simp only [Stmt.calls, Stmt.sites, List.map_append, Expr.map_calls, List.append_assoc]
      exact ((Stmt.calls_sublist a).append (elseCalls_sublist b)).append_left _
  | .loop _ c body =>
      simp only [Stmt.calls, Stmt.sites, List.map_append, Expr.map_calls]
      exact (Stmt.calls_sublist body).append_left _
  | .superCall _ _ args =>
      simp only [Stmt.calls, Stmt.sites, map_callsAll]
      exact (List.Sublist.refl _).cons _
  | .attempt _ body handlers cleanup =>
      simp only [Stmt.calls, Stmt.sites, List.map_append, List.append_assoc]
      exact (Block.calls_sublist body).append
        ((handlersCalls_sublist handlers).append (cleanupCalls_sublist cleanup))
  | .block _ body => exact Block.calls_sublist body

theorem elseCalls_sublist (s : Option Stmt) :
    ((elseCalls s).map (·.site)).Sublist (elseSites s) := by
  match s with
  | none => exact List.Sublist.refl _
  | some s => exact Stmt.calls_sublist s

theorem Block.calls_sublist (b : Block) : (b.calls.map (·.site)).Sublist b.sites := by
  match b with
  | .mk _ stmts => exact stmtsCalls_sublist stmts

theorem cleanupCalls_sublist (b : Option Block) :
    ((cleanupCalls b).map (·.site)).Sublist (blockSites b) := by
  match b with
  | none => exact List.Sublist.refl _
  | some b => exact Block.calls_sublist b

theorem stmtsCalls_sublist (stmts : List Stmt) :
    ((stmtsCalls stmts).map (·.site)).Sublist (stmtsSites stmts) := by
  match stmts with
  | [] => exact List.Sublist.refl _
  | s :: rest =>
      simp only [stmtsCalls, stmtsSites, List.map_append]
      exact (Stmt.calls_sublist s).append (stmtsCalls_sublist rest)

theorem handlersCalls_sublist (handlers : List Handler) :
    ((handlersCalls handlers).map (·.site)).Sublist (handlersSites handlers) := by
  match handlers with
  | [] => exact List.Sublist.refl _
  | .mk _ _ body :: rest =>
      simp only [handlersCalls, handlersSites, Handler.sites, List.map_append]
      exact (Block.calls_sublist body).append (handlersCalls_sublist rest)

end

theorem stmtsCalls_stmts (b : Block) : stmtsCalls b.stmts = b.calls := by
  cases b
  rfl

end Surface

/-- The mark of a typed call or creation. -/
def Typed.Expr.mark? : Typed.Expr → Option CallMark
  | .call span _ site _ _ name _ => some ⟨site, .method, name, span⟩
  | .new span site c _ _ => some ⟨site, .new, c, span⟩
  | _ => none

namespace Typing

/-! ## What is left out -/

mutual

/-- The objects in front of static members that a parsed expression has and the typed one no
more. -/
def leftOut : Surface.Expr → Typed.Expr → List Surface.Expr
  | .binary _ _ l r, .binary _ _ l' r' => leftOut l l' ++ leftOut r r'
  | .index _ a i, .index _ _ a' i' => leftOut a a' ++ leftOut i i'
  | .unary _ _ e, .unary _ _ e' | .newArray _ _ e, .newArray _ _ e' | .old _ e, .old _ e'
  | .spread _ e, .spread _ e' | .field _ e _, .field _ _ e' _ | .field _ e _, .length _ e' =>
    leftOut e e'
  | .field _ o _, .staticField .. => [o]
  | .call _ _ _ args, .call _ _ _ _ _ _ args' | .new _ _ _ args, .new _ _ _ _ args' =>
    leftOutAll args args'
  | .methodCall _ _ o _ args, .call _ _ _ receiver _ _ args' =>
    (match receiver with
      | some o' => leftOut o o'
      | none => [o]) ++ leftOutAll args args'
  | _, _ => []

def leftOutAll : List Surface.Expr → List Typed.Expr → List Surface.Expr
  | e :: es, e' :: es' => leftOut e e' ++ leftOutAll es es'
  | _, _ => []

end

/-- The same for values that may be left out. -/
def leftOutValue : Option Surface.Expr → Option Typed.Expr → List Surface.Expr
  | some e, some e' => leftOut e e'
  | _, _ => []

/-- The same for the target of an assignment, which the typed statement has no expression for. -/
def leftOutTarget : Surface.Expr → Typed.Stmt → List Surface.Expr
  | .field _ o _, .setField _ o' _ _ => leftOut o o'
  | .field _ o _, .setStatic .. => [o]
  | .index _ a i, .setIndex _ a' i' _ => leftOut a a' ++ leftOut i i'
  | _, _ => []

/-- The value of a typed assignment. -/
def assigned? : Typed.Stmt → Option Typed.Expr
  | .setVar _ _ v | .setField _ _ _ v | .setStatic _ _ _ v | .setIndex _ _ _ v => some v
  | _ => none

open Surface (Block Handler)

mutual

def leftOutStmt : Surface.Stmt → Typed.Stmt → List Surface.Expr
  | .declare _ _ _ v, .declare _ _ _ v' | .ret _ v, .ret _ v' => leftOutValue v v'
  | .assign _ target v, s => leftOutTarget target s ++ leftOutValue (some v) (assigned? s)
  | .expr _ v, .expr _ v' | .throw _ v, .throw _ v' => leftOut v v'
  | .branch _ c a b, .branch _ c' a' b' => leftOut c c' ++ (leftOutStmt a a' ++ leftOutElse b b')
  | .loop _ c body, .loop _ c' body' => leftOut c c' ++ leftOutStmt body body'
  | .superCall _ _ args, .superCall _ _ _ args' => leftOutAll args args'
  | .attempt _ body handlers cleanup, .attempt _ body' handlers' cleanup' =>
    leftOutBlock body body' ++ (leftOutHandlers handlers handlers' ++
      leftOutCleanup cleanup cleanup')
  | .block _ body, .block _ body' => leftOutBlock body body'
  | _, _ => []

def leftOutElse : Option Surface.Stmt → Option Typed.Stmt → List Surface.Expr
  | some s, some s' => leftOutStmt s s'
  | _, _ => []

def leftOutBlock : Block → List Typed.Stmt → List Surface.Expr
  | .mk _ stmts, stmts' => leftOutStmts stmts stmts'

def leftOutCleanup : Option Block → Option (List Typed.Stmt) → List Surface.Expr
  | some b, some b' => leftOutBlock b b'
  | _, _ => []

def leftOutStmts : List Surface.Stmt → List Typed.Stmt → List Surface.Expr
  | s :: rest, s' :: rest' => leftOutStmt s s' ++ leftOutStmts rest rest'
  | _, _ => []

def leftOutHandlers : List Handler → List Typed.Handler → List Surface.Expr
  | .mk _ _ body :: rest, .mk _ _ body' :: rest' =>
    leftOutBlock body body' ++ leftOutHandlers rest rest'
  | _, _ => []

end

/-! ## What is kept -/

/-- The calls among typed expressions. -/
def marks (parts : List Typed.Expr) : List CallMark := parts.filterMap Typed.Expr.mark?

/-- The calls `parsed` are the ones among the typed expressions `parts` and those of the objects
that were left out. -/
def Kept (parsed : List CallMark) (parts : List Typed.Expr) (objects : List Surface.Expr) : Prop :=
  parsed.Perm (marks parts ++ objects.flatMap Surface.Expr.calls)

namespace Kept

variable {ps qs : List CallMark} {es fs : List Typed.Expr} {os os' : List Surface.Expr}

theorem nil : Kept [] [] [] := List.Perm.refl _

theorem append (h : Kept ps es os) (h' : Kept qs fs os') :
    Kept (ps ++ qs) (es ++ fs) (os ++ os') := by
  have hswap {as bs cs ds : List CallMark} :
      (as ++ bs ++ (cs ++ ds)).Perm (as ++ cs ++ (bs ++ ds)) := by
    simp only [List.append_assoc]
    refine List.Perm.append_left _ ?_
    rw [← List.append_assoc, ← List.append_assoc]
    exact List.perm_append_comm.append_right _
  rw [Kept, marks, List.filterMap_append, List.flatMap_append]
  exact (List.Perm.append h h').trans hswap

/-- A typed node that is no call. -/
theorem node {e : Typed.Expr} (he : e.mark? = none) (h : Kept ps es os) : Kept ps (e :: es) os := by
  rw [Kept, marks, List.filterMap_cons_none he]
  exact h

/-- A call in both trees. -/
theorem call {e : Typed.Expr} {m : CallMark} (he : e.mark? = some m) (h : Kept ps es os) :
    Kept (m :: ps) (e :: es) os := by
  rw [Kept, marks, List.filterMap_cons_some he]
  exact List.Perm.cons m h

/-- A call behind the calls of its receiver. -/
theorem callBehind {e : Typed.Expr} {m : CallMark} (he : e.mark? = some m)
    (h : Kept (ps ++ qs) es os) : Kept (ps ++ m :: qs) (e :: es) os :=
  List.perm_middle.trans (h.call he)

/-- An object that was left out. -/
theorem object (o : Surface.Expr) : Kept o.calls [] [o] := by
  simp [Kept, marks]

end Kept

mutual

theorem Elab.kept {s : Scope} {e : Surface.Expr} {t : Typed.Expr} {cs : List CallSite}
    (h : Elab s e t cs) : Kept e.calls t.parts (leftOut e t) := by
  cases h with
  | int | bool | null | this | var | param | ownStatic | result => exact .node rfl .nil
  | ownField => exact .node rfl (.node rfl .nil)
  | binary hl hr => exact .node rfl ((Elab.kept hl).append (Elab.kept hr))
  | index ha _ hi => exact .node rfl ((Elab.kept ha).append (Elab.kept hi))
  | unary he | field he | length he | newArray _ he | old he | spread he =>
      exact .node rfl (Elab.kept he)
  | classField | staticField => exact .node rfl (.object _)
  | staticCall ha | new _ _ ha => exact .call rfl (ElabAll.kept ha)
  | ownCall ha => exact .call rfl (.node rfl (ElabAll.kept ha))
  | classCall _ ha => exact .callBehind rfl ((Kept.object _).append (ElabAll.kept ha))
  | droppedCall _ _ ha => exact .callBehind rfl ((Kept.object _).append (ElabAll.kept ha))
  | methodCall ho _ ha => exact .callBehind rfl ((Elab.kept ho).append (ElabAll.kept ha))

theorem ElabAll.kept {s : Scope} {es : List Surface.Expr} {ts : List Typed.Expr}
    {cs : List CallSite} (h : ElabAll s es ts cs) :
    Kept (Surface.callsAll es) (Typed.Expr.partsAll ts) (leftOutAll es ts) := by
  cases h with
  | nil => exact .nil
  | cons he hes => exact (Elab.kept he).append (ElabAll.kept hes)

end

theorem leftOutStmts_stmts (b : Block) (ts : List Typed.Stmt) :
    leftOutStmts b.stmts ts = leftOutBlock b ts := by
  cases b
  rfl

mutual

theorem ElabStmt.kept {k : BodyKind} {s s' : Scope} {c : Surface.Stmt} {t : Typed.Stmt}
    {cs : List CallSite} (h : ElabStmt k s c t s' cs) : Kept c.calls t.parts (leftOutStmt c t) := by
  cases h with
  | declare | retVoid => exact .nil
  | declareInit _ hv => exact hv.kept
  | setVar hv ht =>
      cases ht with
      | var => exact hv.kept
  | setField hv ht =>
      cases ht with
      | ownField => exact .node rfl hv.kept
      | field ho => exact ho.kept.append hv.kept
  | setStatic hv ht =>
      cases ht with
      | ownStatic => exact hv.kept
      | classField | staticField => exact (Kept.object _).append hv.kept
  | setIndex hv ht =>
      cases ht with
      | index ha _ hi =>
          show Kept _ (_ ++ (_ ++ _)) _
          rw [← List.append_assoc]
          exact (ha.kept.append hi.kept).append hv.kept
  | expr he => exact he.kept
  | branch hc _ ha hb => exact hc.kept.append ((ElabStmt.kept ha).append (ElabElse.kept hb))
  | loop hc _ hb => exact hc.kept.append (ElabStmt.kept hb)
  | ret _ hv => exact hv.kept
  | throw hv => exact hv.kept
  | attempt hb hh hc =>
      refine Kept.append ?_ ((ElabHandlers.kept hh).append (ElabCleanup.kept hc))
      have hbody := ElabStmts.kept hb
      rwa [Surface.stmtsCalls_stmts, leftOutStmts_stmts] at hbody
  | block hb =>
      have hbody := ElabStmts.kept hb
      rwa [Surface.stmtsCalls_stmts, leftOutStmts_stmts] at hbody

theorem ElabElse.kept {k : BodyKind} {s : Scope} {c : Option Surface.Stmt}
    {t : Option Typed.Stmt} {cs : List CallSite} (h : ElabElse k s c t cs) :
    Kept (Surface.elseCalls c) (Typed.elseParts t) (leftOutElse c t) := by
  cases h with
  | none => exact .nil
  | some hb => exact ElabStmt.kept hb

theorem ElabStmts.kept {k : BodyKind} {s : Scope} {cs : List Surface.Stmt}
    {ts : List Typed.Stmt} {ds : List CallSite} (h : ElabStmts k s cs ts ds) :
    Kept (Surface.stmtsCalls cs) (Typed.stmtsParts ts) (leftOutStmts cs ts) := by
  cases h with
  | nil => exact .nil
  | cons hc hr => exact (ElabStmt.kept hc).append (ElabStmts.kept hr)

theorem ElabCleanup.kept {k : BodyKind} {s : Scope} {b : Option Block}
    {t : Option (List Typed.Stmt)} {cs : List CallSite} (h : ElabCleanup k s b t cs) :
    Kept (Surface.cleanupCalls b) (Typed.cleanupParts t) (leftOutCleanup b t) := by
  cases h with
  | none => exact .nil
  | some hb =>
      have hbody := ElabStmts.kept hb
      rwa [Surface.stmtsCalls_stmts, leftOutStmts_stmts] at hbody

theorem ElabHandlers.kept {k : BodyKind} {s : Scope} {hs : List Handler}
    {ts : List Typed.Handler} {cs : List CallSite} (h : ElabHandlers k s hs ts cs) :
    Kept (Surface.handlersCalls hs) (Typed.handlersParts ts) (leftOutHandlers hs ts) := by
  cases h with
  | nil => exact .nil
  | cons _ _ hb hr =>
      refine Kept.append ?_ (ElabHandlers.kept hr)
      have hbody := ElabStmts.kept hb
      rwa [Surface.stmtsCalls_stmts, leftOutStmts_stmts] at hbody

end

theorem ElabBody.kept {k : BodyKind} {s : Scope} {b : Block} {ts : List Typed.Stmt}
    {cs : List CallSite} (h : ElabBody k s b.stmts ts cs) :
    Kept b.calls (Typed.stmtsParts ts) (leftOutBlock b ts) := by
  rw [← Surface.stmtsCalls_stmts, ← leftOutStmts_stmts]
  generalize b.stmts = stmts at h
  cases h with
  | plain hs => exact hs.kept
  | super _ _ _ ha _ hr => exact ha.kept.append hr.kept

end Typing

/-! ## Members -/

open Surface (Member TypeDecl)

/-- The calls that a member has in the source: those of its first value or of its body. -/
def Surface.Member.calls (m : Member) : List CallMark :=
  valueCalls m.init? ++ cleanupCalls m.body?

/-- The calls in the body of a declaration and in its first value, as they were typed. -/
def Env.marksOf (env : Env) (decl : DeclId) : List CallMark := Typing.marks (env.partsOf decl)

/-- The objects in front of static members that typing left out of a member. -/
def Env.leftOut (env : Env) (m : Surface.Member) : List Surface.Expr :=
  Typing.leftOutValue m.init? (env.fieldInits.get? m.id) ++
    Typing.leftOutCleanup m.body? (env.body? m.id)

namespace Surface.Member

theorem calls_sublist (m : Surface.Member) : (m.calls.map (·.site)).Sublist m.sites := by
  cases m with
  | field d =>
      show (List.map CallMark.site (valueCalls d.init ++ [])).Sublist (valueSites d.init)
      rw [List.append_nil, map_valueCalls]
  | constructor d | method d => exact cleanupCalls_sublist d.body
  | initializer d => exact d.body.calls_sublist

/-- A member has a first value or a body or neither. -/
theorem body?_of_init? {m : Member} (h : m.init? ≠ none) : m.body? = none := by
  cases m with
  | field => rfl
  | constructor | method | initializer => exact absurd rfl h

end Surface.Member

namespace Typing

section

variable {p : Surface.Program} (hp : p.WellFormed) {env : Env} (h : checkProgram p = .ok env)

include hp h

/-- The calls of a member are those of its typed body and first value, and those of what was left
out. -/
theorem kept_of_member {t : TypeDecl} (ht : t ∈ p.types) {m : Member} (hm : m ∈ t.members) :
    Kept m.calls (env.partsOf m.id) (env.leftOut m) := by
  rw [Member.calls, Env.partsOf, Env.leftOut]
  cases hinit : m.init? with
  | some e =>
      have hbody := m.body?_of_init? (by rw [hinit]; simp)
      obtain ⟨s, v, cs, he, hv⟩ := init_of_member hp h ht hm hinit
      rw [hbody, body?_eq_none hp h ht hm hbody, hv]
      simpa [Surface.valueCalls, Surface.cleanupCalls, Typed.stmtsParts, Typed.Expr.partsOpt,
        leftOutValue, leftOutCleanup] using he.kept
  | none =>
      rw [init?_eq_none hp h ht hm hinit]
      cases hbody : m.body? with
      | none =>
          rw [body?_eq_none hp h ht hm hbody]
          exact .nil
      | some b =>
          obtain ⟨k, s, ts, cs, he, hts⟩ := body_of_member hp h ht hm hbody
          rw [hts]
          simpa [Surface.valueCalls, Surface.cleanupCalls, Typed.Expr.partsOpt, leftOutValue,
            leftOutCleanup] using he.kept

end

/-- No two calls of a member have one number. -/
theorem nodup_calls {p : Surface.Program} (hp : p.WellFormed) {t : TypeDecl} (ht : t ∈ p.types)
    {m : Member} (hm : m ∈ t.members) : (m.calls.map (·.site)).Nodup := by
  have hsub : m.sites.Sublist (p.types.flatMap TypeDecl.sites) := by
    have hmember : m.sites.Sublist t.sites := List.sublist_flatten_of_mem (List.mem_map_of_mem hm)
    exact hmember.trans (List.sublist_flatten_of_mem (List.mem_map_of_mem ht))
  exact hp.sites.nodup.sublist (m.calls_sublist.trans hsub)

/-- What a list keeps of another one is all of it exactly if nothing was left out. -/
theorem Kept.all_iff {ps : List CallMark} {es : List Typed.Expr} {os : List Surface.Expr}
    (h : Kept ps es os) (hn : (ps.map (·.site)).Nodup) :
    (∀ c ∈ ps, c ∈ marks es) ↔ ∀ o ∈ os, o.calls = [] := by
  have hnodup := (List.Nodup.of_map _ hn).perm h
  constructor
  · intro hall o ho
    refine List.eq_nil_iff_forall_not_mem.mpr fun c hc => ?_
    have hleft : c ∈ os.flatMap Surface.Expr.calls := List.mem_flatMap.mpr ⟨o, ho, hc⟩
    have hkept := hall c (h.mem_iff.mpr (List.mem_append_right _ hleft))
    exact (List.nodup_append.mp hnodup).2.2 c hkept c hleft rfl
  · intro hnone c hc
    rcases List.mem_append.mp (h.mem_iff.mp hc) with hkept | hleft
    · exact hkept
    · obtain ⟨o, ho, hmem⟩ := List.mem_flatMap.mp hleft
      rw [hnone o ho] at hmem
      exact absurd hmem List.not_mem_nil

end Typing

/-- The calls that a member of an accepted program has in the source are the calls of its typed body
or first value, and those of the objects in front of static members, which typing leaves out. So all
of them are kept exactly if there is no call in such an object. -/
theorem calls_kept_iff {source : String} {p : Surface.Program} {env : Env}
    (hp : Parse.program source = .ok p) (h : Typing.checkProgram p = .ok env) {t : TypeDecl}
    (ht : t ∈ p.types) {m : Member} (hm : m ∈ t.members) :
    (m.init?.isSome = (env.fieldInits.get? m.id).isSome ∧
      m.body?.isSome = (env.body? m.id).isSome) ∧
    m.calls.Perm (env.marksOf m.id ++ (env.leftOut m).flatMap Surface.Expr.calls) ∧
    ((∀ c ∈ m.calls, c ∈ env.marksOf m.id) ↔ ∀ o ∈ env.leftOut m, o.calls = []) := by
  have hwf := Parse.program_wellFormed hp
  have hkept := Typing.kept_of_member hwf h ht hm
  refine ⟨⟨?_, ?_⟩, hkept, hkept.all_iff (Typing.nodup_calls hwf ht hm)⟩
  · cases hinit : m.init? with
    | none => rw [Typing.init?_eq_none hwf h ht hm hinit]; rfl
    | some e =>
        obtain ⟨_, v, _, _, hv⟩ := Typing.init_of_member hwf h ht hm hinit
        rw [hv]; rfl
  · cases hbody : m.body? with
    | none => rw [Typing.body?_eq_none hwf h ht hm hbody]; rfl
    | some b =>
        obtain ⟨_, _, ts, _, _, hts⟩ := Typing.body_of_member hwf h ht hm hbody
        rw [hts]; rfl

/-- A static method that is selected from the name of its class, and a method of an object that a
call yields. -/
def selectedSource : String :=
  "class Main \x7b
    int one() \x7b return 1; \x7d
    static Main make() \x7b return new Main(); \x7d
    static int main() \x7b return make().one() + Main.zero(); \x7d
    static int zero() \x7b return 0; \x7d
  \x7d"

/-- Evaluates what is said of `selectedSource`. -/
def selectedCheck : Option (Surface.Program × Env × TypeDecl × Member) := do
  let p ← (Parse.program selectedSource).toOption
  let env ← (Typing.checkProgram p).toOption
  let t ← p.types.head?
  let m ← t.members[2]?
  if (env.leftOut m).length = 1 ∧ (env.leftOut m).all (·.calls.isEmpty) = true ∧ m.calls.length = 3
  then some (p, env, t, m) else none

/-- The name of the class is left out, and all three calls are kept. -/
theorem calls_kept_iff_selected :
    ∃ p env t m, Parse.program selectedSource = .ok p ∧ Typing.checkProgram p = .ok env ∧
      t ∈ p.types ∧ m ∈ t.members ∧ (env.leftOut m).length = 1 ∧ m.calls.length = 3 ∧
      ∀ c ∈ m.calls, c ∈ env.marksOf m.id := by
  have h : selectedCheck.isSome = true := by
    set_option maxRecDepth 20000 in
    rw [selectedCheck, show selectedSource = String.ofList _ from rfl, Parse.program_ofList]
    decide +kernel
  obtain ⟨⟨p, env, t, m⟩, h⟩ := Option.isSome_iff_exists.mp h
  rw [selectedCheck] at h
  obtain ⟨p', hp, h⟩ := Option.bind_eq_some_iff.mp h
  obtain ⟨env', henv, h⟩ := Option.bind_eq_some_iff.mp h
  obtain ⟨t', ht, h⟩ := Option.bind_eq_some_iff.mp h
  obtain ⟨m', hm, h⟩ := Option.bind_eq_some_iff.mp h
  split at h
  · next hcheck =>
      cases h
      obtain ⟨hlen, hnone, hcalls⟩ := hcheck
      have hp := ok_of_toOption hp
      have henv := ok_of_toOption henv
      have ht := List.mem_of_head? ht
      have hm := List.mem_of_getElem? hm
      refine ⟨p, env, t, m, hp, henv, ht, hm, hlen, hcalls, ?_⟩
      refine (calls_kept_iff hp henv ht hm).2.2.mpr fun o ho => ?_
      simpa using List.all_eq_true.mp hnone o ho
  · cases h

/-- A static method and a static field that are selected from what a call yields. -/
def droppedSource : String :=
  "class Main \x7b
    static int n;
    static Main get() \x7b n = n + 1; return new Main(); \x7d
    static int sm() \x7b return 0; \x7d
    static int main() \x7b get().sm(); return get().n; \x7d
  \x7d"

/-- Evaluates what is said of `droppedSource`. -/
def droppedCheck : Option Bool := do
  let p ← (Parse.program droppedSource).toOption
  let b ← (build droppedSource {}).toOption
  let t ← p.types.head?
  let m ← t.members[3]?
  let c ← m.calls.head?
  return !(b.program.env.marksOf m.id).contains c && (b.program.env.callSites.get? c.site).isSome &&
    match b.program.run 8 8 "Main.main" .initial with
    | some (.ok (.returned (.int 0)), _) => true
    | _ => false

/-- The calls of `get` in front of a static method and a static field are not in the typed body. One
of them at least is written down all the same. The program never counts up and returns nothing but
the first value of the counter. -/
theorem calls_dropped :
    ∃ p b t m c μ, Parse.program droppedSource = .ok p ∧ build droppedSource {} = .ok b ∧
      t ∈ p.types ∧ m ∈ t.members ∧ c ∈ m.calls ∧ c ∉ b.program.env.marksOf m.id ∧
      (b.program.env.callSites.get? c.site).isSome = true ∧
      b.program.run 8 8 "Main.main" .initial = some (.ok (.returned (.int 0)), μ) := by
  have h : droppedCheck = some true := by
    set_option maxRecDepth 20000 in
    rw [droppedCheck, show droppedSource = String.ofList _ from rfl, build_ofList,
      Parse.program_ofList]
    decide +kernel
  rw [droppedCheck] at h
  obtain ⟨p, hp, h⟩ := Option.bind_eq_some_iff.mp h
  obtain ⟨b, hb, h⟩ := Option.bind_eq_some_iff.mp h
  obtain ⟨t, ht, h⟩ := Option.bind_eq_some_iff.mp h
  obtain ⟨m, hm, h⟩ := Option.bind_eq_some_iff.mp h
  obtain ⟨c, hc, h⟩ := Option.bind_eq_some_iff.mp h
  simp only [pure, Option.some.injEq, Bool.and_eq_true] at h
  obtain ⟨⟨hdropped, hwritten⟩, hrun⟩ := h
  split at hrun
  · next μ hresult =>
      exact ⟨p, b, t, m, c, μ, ok_of_toOption hp, ok_of_toOption hb, List.mem_of_head? ht,
        List.mem_of_getElem? hm, List.mem_of_head? hc, by simpa using hdropped, hwritten, hresult⟩
  · cases hrun

end Covenant
