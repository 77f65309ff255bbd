import Covenant.Proofs.ConstructorWork

/-!
# The order of construction

A creation puts an object on the heap and invokes a constructor on it. The work on the
object is that of this constructor, and so it has the order that the work of constructors
has: nothing that is evaluated before can be about an object that is not there yet, and
what is checked behind the creation has no code that makes objects. Along the chain of
superclasses one constructor of each class is entered.
-/

namespace Covenant

open HasRefs (refs)
open Typed (Expr Stmt)

namespace Run

variable {p : WovenProgram} {src : Surface.Program} {r : Ref}

/-! ## New objects -/

section

variable (hp : p.Constructive src) (limit bound : Nat)

include hp

/-- What is run on an object that has been put on the heap. -/
theorem shows_made {info : ClassInfo} {m : MethodInfo} (hm : p.env.Makes info m) (args : List Value)
    (caller : DeclId) (site : SiteId) {held : List Ref} [Held args held] [Held r held] :
    Run.Shows p.env r (fun _ ws => Built p (p.env.classChain m.owner) m.id ws)
      (.bind (Journey.invoke (Journey.calls p limit bound) (some r) args m.id) fun _ =>
        .bind (Journey.recheck (Journey.calls p limit bound) (some r) args caller site) fun _ =>
          .calm : (do
            let _ ← (calls p limit bound).invoke m.id (some r) args
            (calls p limit bound).recheck caller site (some r) args
            return .ref r : Run Value).Journey p.Places held) := by
  have hquiet : (Journey.calls p limit bound).Orderly p.env (Own p.env r fun _ _ => False)
      (r + 1) := orderly_calls hp lets_own limit bound
  refine .bind (.weaken (shows_calls hp limit r bound args hm)) fun _ =>
    .bind (.weaken (hquiet.recheck caller site (some r) args).shows) fun _ =>
      .calm (fun _ => rfl) fun _ ws hws works hworks => ?_
  rw [List.append_nil, List.eq_nil_iff_forall_not_mem.mpr hws, List.append_nil]
  exact hworks

/-- The new object is the next one on the heap, and all the work on it is that of its
construction. -/
theorem built_of_construct {info : ClassInfo} {m : MethodInfo} (hm : p.env.Makes info m)
    (args : List Value) (caller : DeclId) (site : SiteId) {held : List Ref} [Held args held]
    {μ μ' : Machine} {v : Value}
    (h : (construct p.env (calls p limit bound) caller site m.owner m.id args).ends μ =
      some (.ok v, μ')) :
    v = .ref μ.heap.size ∧ μ'.heap.className? μ.heap.size = some m.owner ∧
      Built p (p.env.classChain m.owner) m.id (worksOn p.env μ.heap.size
        ((Journey.construct (Journey.calls p limit bound) args caller site m.owner m.id :
          (construct p.env (calls p limit bound) caller site m.owner m.id args).Journey
            p.Places held).moments μ)) := by
  obtain ⟨_, _, hu⟩ | ⟨r, μ₁, hnew, hmade⟩ := ends_bind_eq_some.mp h
  · cases hu
  · obtain ⟨_, _, hu⟩ | ⟨_, μ₂, hinvoke, hrest⟩ := ends_bind_eq_some.mp hmade
    · cases hu
    · obtain ⟨_, _, hu⟩ | ⟨_, μ₃, hrecheck, hend⟩ := ends_bind_eq_some.mp hrest
      · cases hu
      · obtain ⟨fields, rfl, hμ₁⟩ : ∃ fields, r = μ.heap.size ∧
            μ₁ = { μ with heap := μ.heap.push (.inst m.owner fields) } := by
          cases hnew
          exact ⟨_, rfl, rfl⟩
        cases hend
        have hlt : μ.heap.size < μ₁.heap.size := by simp [hμ₁]
        have hthere : μ₁.heap[μ.heap.size]? = some (.inst m.owner fields) := by simp [hμ₁]
        have hkept := (((Journey.calls p limit bound).invoke _ _ _).kept hinvoke).trans
          (((Journey.calls p limit bound).recheck _ _ _ _).kept hrecheck)
        have hmoments : (Run.Journey.brief :
            (instantiate p.env m.owner).Journey p.Places held).moments μ = [⟨[], μ₁, none⟩] := by
          simp only [Run.Journey.brief, hnew]
        refine ⟨rfl, hkept.className? hthere, ?_⟩
        rw [Journey.construct, Run.Journey.moments_bind_ok _ _ hnew, worksOn_append, hmoments,
          worksOn_cons_silent, worksOn_nil, List.nil_append]
        exact shows_made hp limit bound hm args caller site μ₁ _ _ hlt hmade

/-- What is evaluated for the arguments is no work on the new object. -/
theorem built_of_new {info : ClassInfo} {m : MethodInfo} (hm : p.env.Makes info m) {f : Frame}
    {span : Span} {site : SiteId} {args : List Expr} {held : List Ref} [Held f held]
    (hplaced : Allowed p.Places f.decl .expr (Expr.new span site m.owner m.id args).parts)
    {μ μ' : Machine} (hclosed : World.Closed held μ) {v : Value}
    (h : (eval p.env (calls p limit bound) f (.new span site m.owner m.id args)).ends μ =
      some (.ok v, μ')) :
    ∃ r, v = .ref r ∧ μ.heap.size ≤ r ∧ μ'.heap.className? r = some m.owner ∧
      Built p (p.env.classChain m.owner) m.id (worksOn p.env r
        ((Journey.eval (Journey.calls p limit bound) f _ hplaced :
          (eval p.env (calls p limit bound) f
            (.new span site m.owner m.id args)).Journey p.Places held).moments μ)) := by
  rw [eval] at h
  obtain ⟨_, _, hu⟩ | ⟨vs, μ₁, hargs, hmade⟩ := ends_bind_eq_some.mp h
  · cases hu
  · let before : (evalAll p.env (calls p limit bound) f args).Journey p.Places held :=
      .starting f hplaced.head (Journey.evalAll (Journey.calls p limit bound) f args hplaced.tail)
    let made : (construct p.env (calls p limit bound) f.decl site m.owner m.id vs).Journey p.Places
        (refs vs ++ held) :=
      Journey.construct (Journey.calls p limit bound) vs f.decl site m.owner m.id
    have hmoments : (Journey.eval (Journey.calls p limit bound) f _ hplaced :
        (eval p.env (calls p limit bound) f
          (.new span site m.owner m.id args)).Journey p.Places held).moments μ =
        before.moments μ ++ (made.moments μ₁).map (Moment.under f) :=
      congrArg (_ :: ·) (Run.Journey.moments_bind_ok _ _ hargs)
    obtain ⟨hv, hclass, hbuilt⟩ : _ ∧ _ ∧ Built p _ _ (worksOn p.env _ (made.moments μ₁)) :=
      built_of_construct hp limit bound hm vs f.decl site hmade
    have habsent : worksOn p.env μ₁.heap.size (before.moments μ) = [] :=
      worksOn_absent before hclosed hargs (Nat.le_refl _)
    refine ⟨_, hv, (before.kept hargs).size, hclass, ?_⟩
    rw [hmoments, worksOn_append, habsent, List.nil_append,
      worksOn_under f fun x hx => made.placed x hx]
    exact hbuilt

end

end Run

/-! ## One constructor of each class -/

/-- The members that are entered in the course of work, one after the other. -/
def enteredIn (ws : List Work) : List DeclId :=
  ws.filterMap fun x => match x.2 with
    | .enter => some x.1
    | _ => none

section

variable {decl : DeclId} {ws : List Work}

@[simp] theorem enteredIn_append (ws ws' : List Work) :
    enteredIn (ws ++ ws') = enteredIn ws ++ enteredIn ws' :=
  List.filterMap_append ..

@[simp] theorem enteredIn_enter : enteredIn ((decl, .enter) :: ws) = decl :: enteredIn ws := rfl

@[simp] theorem enteredIn_leave : enteredIn ((decl, .leave) :: ws) = enteredIn ws := rfl

@[simp] theorem enteredIn_expr (e : Expr) : enteredIn ((decl, .expr e) :: ws) = enteredIn ws := rfl

@[simp] theorem enteredIn_stmt (s : Stmt) : enteredIn ((decl, .stmt s) :: ws) = enteredIn ws := rfl

@[simp] theorem enteredIn_check (code : CheckCode) :
    enteredIn ((decl, .check code) :: ws) = enteredIn ws := rfl

theorem WorkOf.entered {tasks : List Task} (h : WorkOf decl tasks ws) (htasks : .enter ∉ tasks) :
    enteredIn ws = [] := by
  refine List.filterMap_eq_nil_iff.mpr fun x hx => ?_
  split
  · next heq => exact absurd (heq ▸ (h x hx).2) htasks
  · rfl

theorem enter_not_mem_exprs (es : List Expr) : Task.enter ∉ es.map .expr := by simp

theorem Typed.Stmt.enter_not_mem_tasks (s : Stmt) : Task.enter ∉ s.tasks := by
  rw [tasks, List.mem_append, List.mem_map, List.mem_map]
  rintro (⟨_, _, h⟩ | ⟨_, _, h⟩) <;> cases h

theorem CodeRun.entered {code : CheckCode} : CodeRun decl code ws → enteredIn ws = []
  | .intro h => by rw [enteredIn_check, h.entered (enter_not_mem_exprs _)]

theorem StmtsRun.entered {body : List Stmt} (h : StmtsRun decl body ws) : enteredIn ws = [] := by
  induction h with
  | done => rfl
  | next hwithin _ ih => simp [hwithin.entered (Stmt.enter_not_mem_tasks _), ih]
  | left hwithin => simp [hwithin.entered (Stmt.enter_not_mem_tasks _)]

theorem ItemRun.entered {env : Env} {item : InitItem} : ItemRun env item ws → enteredIn ws = []
  | .field _ h => by rw [enteredIn_expr, h.entered (enter_not_mem_exprs _)]
  | .block _ h => h.entered

theorem InTurn.entered {τ : Type} {R : τ → List Work → Prop} {l : List τ} (h : InTurn R l ws)
    (hR : ∀ a ws, R a ws → enteredIn ws = []) : enteredIn ws = [] := by
  induction h with
  | nil => rfl
  | cons hfirst _ ih => rw [enteredIn_append, hR _ _ hfirst, ih, List.append_nil]

theorem InTurn.entered_codes {codes : List CheckCode} (h : InTurn (CodeRun decl) codes ws) :
    enteredIn ws = [] :=
  h.entered fun _ _ h => h.entered

end

/-- The number is that of a constructor of the class. -/
def Env.HasConstructor (env : Env) (info : ClassInfo) (id : DeclId) : Prop :=
  ∃ m, env.Makes info m ∧ m.id = id

section

variable {p : WovenProgram}

mutual

/-- Along a chain of classes one constructor of each is entered. -/
theorem Built.entered {chain : List ClassInfo} {ctor : DeclId} {ws : List Work} :
    Built p chain ctor ws → List.Forall₂ p.env.HasConstructor chain (enteredIn ws)
  | .intro hm _ _ _ hentered hrun hleft => by
      simp only [enteredIn_append, enteredIn_enter, enteredIn_leave, hentered.entered_codes,
        hleft.entered_codes, List.append_nil, List.nil_append]
      exact .cons ⟨_, hm, rfl⟩ hrun.entered

theorem BodyBuilt.entered {info : ClassInfo} {m : MethodInfo} {chain : List ClassInfo}
    {ws : List Work} :
    BodyBuilt p info m chain ws → List.Forall₂ p.env.HasConstructor chain (enteredIn ws)
  | .intro hsuper hinits hrest => by
      simp only [enteredIn_append, hinits.entered fun _ _ h => h.entered, hrest.entered,
        List.append_nil]
      exact hsuper.entered

theorem SuperBuilt.entered {info : ClassInfo} {decl : DeclId} {body : List Stmt}
    {chain : List ClassInfo} {ws : List Work} :
    SuperBuilt p info decl body chain ws → List.Forall₂ p.env.HasConstructor chain (enteredIn ws)
  | .root _ _ => .nil
  | .explicit _ _ hwithin hbuilt => by
      simp only [enteredIn_append, enteredIn_stmt, hwithin.entered (enter_not_mem_exprs _),
        List.nil_append]
      exact hbuilt.entered
  | .implicit _ _ _ hbuilt => hbuilt.entered

end

end

/-! ## Programs that are accepted -/

section

variable {source : String} {checks : Checks} {b : Build}

open Run in
/-- Objects are constructed in order. Where an accepted program creates an object and this yields a
value, the value is a new object of the class, and the work on the object is that of a constructor
of the class and of those that it relies on: one of each class along the chain of superclasses, and
no class is in the chain twice. The initializers that are run stand in the order of the members. No
creation ends for want of a constructor without parameters. -/
theorem construction_order (h : build source checks = .ok b) (limit bound : Nat) {f : Frame}
    {held : List Ref} [Held f held] {μ : Machine} (hclosed : World.Closed held μ) {span : Span}
    {site : SiteId} {className : String} {ctor : DeclId} {args : List Expr}
    (hplaced : Allowed b.program.Places f.decl .expr
      (Expr.new span site className ctor args).parts) :
    let env := b.program.env
    let creation := eval env (calls b.program limit bound) f (.new span site className ctor args)
    let journey : creation.Journey b.program.Places held :=
      Journey.eval (Journey.calls b.program limit bound) f _ hplaced
    (∀ v μ', creation.ends μ = some (.ok v, μ') → ∃ r, v = .ref r ∧ μ.heap.size ≤ r ∧
      μ'.heap.className? r = some className ∧
      Built b.program (env.classChain className) ctor (worksOn env r (journey.moments μ)) ∧
      List.Forall₂ env.HasConstructor (env.classChain className)
        (enteredIn (worksOn env r (journey.moments μ)))) ∧
    ((env.classChain className).map (·.name)).Nodup ∧
    (∀ src, Parse.program source = .ok src → ∀ t ∈ src.types, ∃ info,
      env.class? t.name.val = some info ∧
        info.initOrder = t.members.flatMap Surface.Member.initItems) ∧
    ∀ s μ', creation.ends μ ≠ some (.error (.fatal (.internal (.noDefaultConstructor s))), μ') := by
  obtain ⟨src, hp⟩ := constructive_of_build h
  obtain ⟨m, hm, rfl, hctor⟩ := hp.creations hplaced.head
  obtain ⟨rfl, info, hmakes⟩ := hp.declared.makes hm hctor
  intro env creation journey
  refine ⟨fun v μ' hends => ?_, hp.declared.classChain_nodup _, fun src' hsrc t ht => ?_,
    fun s μ' hends => ?_⟩
  · obtain ⟨r, hv, hnew, hclass, hbuilt⟩ := built_of_new hp limit bound hmakes hplaced hclosed hends
    exact ⟨r, hv, hnew, hclass, hbuilt, hbuilt.entered⟩
  · obtain ⟨hcheck, _, _⟩ := analysis_of_build h hsrc
    exact (Env.declaredBy_of_check (Parse.program_wellFormed hsrc) hcheck).initOrder_of_type ht
  · have horderly := orderly_calls hp (K := fun _ _ _ => True) (n := 0) (fun _ _ => trivial) limit
      bound
    have hopens : Run.Opens (fun _ _ _ => True) 0 f _ journey :=
      opens_eval horderly hp.methods f _ hplaced fun _ _ => trivial
    exact hopens.founded (Nat.zero_le _) hends s rfl

end

/-- Three classes: a constructor that calls one of the superclass, one that does not, and a class
without a constructor of its own. -/
def towerSource : String :=
  "class Ground { int floors = 1; { floors = floors + 1; } }
  class Storey extends Ground {
    int height = floors * 10;
    /** @pre | n > 0
        @post | height >= old(n) */
    Storey(int n) { height = height + n; }
  }
  class Tower extends Storey {
    { height = height + floors; }
    int top = height + 1;
    Tower(int n) { super(n + 1); top = top + n; }
  }
  class Main { static int main() { Tower t = new Tower(3); return t.top; } }"

/-- What a creation creates. -/
def Typed.Expr.created? : Expr → Option (Span × SiteId × String × DeclId × List Expr)
  | .new span site className ctor args => some (span, site, className, ctor, args)
  | _ => none

/-- Evaluates what is said of `towerSource`. -/
def towerCheck : Option Bool := do
  let b ← (build towerSource {}).toOption
  let id ← (Run.findEntry b.program.env "Main.main").toOption
  let e ← (b.program.env.partsOf id).find? (·.created?.isSome)
  let (span, site, className, ctor, args) ← e.created?
  let e := Expr.new span site className ctor args
  let creation := Run.eval b.program.env (Run.calls b.program 8 8) (Frame.start id none []) e
  return decide ((∀ x ∈ e.parts, x ∈ b.program.env.partsOf id) ∧
    (creation.ends .initial).map (·.1) = some (.ok (.ref 0)) ∧ (b.program.env.classChain className).length = 3)

/-- For the tower the constructors of three classes do their work on the first object. -/
theorem construction_order_tower : ∃ (b : Build) (id ctor : DeclId) (span : Span) (site : SiteId)
    (className : String) (args : List Expr)
    (hplaced : Allowed b.program.Places id .expr (Expr.new span site className ctor args).parts),
    let chain := b.program.env.classChain className
    let ws := worksOn b.program.env 0 ((Run.Journey.eval (Run.Journey.calls b.program 8 8)
      (Frame.start id none []) (.new span site className ctor args) hplaced :
        (Run.eval b.program.env (Run.calls b.program 8 8) (Frame.start id none [])
          (.new span site className ctor args)).Journey b.program.Places []).moments .initial)
    build towerSource {} = .ok b ∧ World.Closed [] Machine.initial ∧ chain.length = 3 ∧
      Built b.program chain ctor ws ∧ (enteredIn ws).length = 3 := by
  have h : towerCheck = some true := by
    set_option maxRecDepth 20000 in
    rw [towerCheck, show towerSource = String.ofList _ from rfl, build_ofList]
    decide +kernel
  rw [towerCheck] at h
  obtain ⟨b, hb, h⟩ := Option.bind_eq_some_iff.mp h
  obtain ⟨id, _, h⟩ := Option.bind_eq_some_iff.mp h
  obtain ⟨_, _, h⟩ := Option.bind_eq_some_iff.mp h
  obtain ⟨⟨span, site, className, ctor, args⟩, _, h⟩ := Option.bind_eq_some_iff.mp h
  obtain ⟨hparts, hends, hchain⟩ := of_decide_eq_true (Option.some.inj h)
  obtain ⟨⟨_, μ'⟩, hends, rfl⟩ := Option.map_eq_some_iff.mp hends
  have hplaced : Allowed b.program.Places id .expr (Expr.new span site className ctor args).parts :=
    fun x hx => .inl (hparts x hx)
  have hclosed : World.Closed [] Machine.initial := ⟨.initial, .nil⟩
  obtain ⟨hyields, _⟩ := construction_order (ok_of_toOption hb) 8 8 (f := Frame.start id none [])
    hclosed hplaced
  obtain ⟨r, hr, _, _, hbuilt, hentered⟩ := hyields _ _ hends
  obtain rfl := Value.ref.inj hr
  exact ⟨b, id, ctor, span, site, className, args, hplaced, ok_of_toOption hb, hclosed, hchain,
    hbuilt, hentered.length_eq.symm.trans hchain⟩

end Covenant
