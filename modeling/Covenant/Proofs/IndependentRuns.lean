import Covenant.Proofs.DepthLimits
import Covenant.Proofs.SoundBuilds

/-!
# Runs after runs

A run on a heap on which others have run is compared with the same run on a fresh
machine: it does the same with the references moved up behind the objects that
were there before. Nothing else of the runs before reaches it. The members that
were active have been left, and the static fields are set anew: a run writes only
those that the program declares, so the others never have values.
-/

namespace Covenant

open Typed (Stmt)

/-! ## Objects behind others -/

/-- The machine on the right has the objects of the one on the left behind those of a heap, with
references that are moved up by as many. -/
def Comparison.behind (heap : Heap) : Comparison where
  ref r := r + heap.size
  machine μ ν := ν.heap = heap ++ μ.heap.map (Obj.rename (· + heap.size)) ∧
    (∀ k, ν.statics.get? k = (μ.statics.get? k).map (Value.rename (· + heap.size))) ∧
    ν.depth = μ.depth
  keys _ := True
  lenient := False
  injective _ _ h := Nat.add_right_cancel h
  depth h := h.2.2
  heap h r := by
    rw [h.1, Array.getElem?_append_right (Nat.le_add_left ..), Nat.add_sub_cancel,
      Array.getElem?_map]
  statics h := h.2.1
  alloc {μ ν} h o := by
    refine ⟨?_, ?_, h.2⟩
    · rw [h.1, Array.size_append, Array.size_map, Nat.add_comm]
    · show ν.heap.push _ = heap ++ (μ.heap.push o).map _
      rw [h.1, Array.map_push, Array.append_push]
  update {μ ν} h r f f' hf := by
    refine ⟨Array.ext_getElem? fun i => ?_, h.2⟩
    show (ν.heap.modify (r + heap.size) f')[i]? =
      (heap ++ (μ.heap.modify r f).map (Obj.rename (· + heap.size)))[i]?
    rw [h.1, Array.getElem?_modify]
    rcases Nat.lt_or_ge i heap.size with hi | hi
    · rw [if_neg (by omega), Array.getElem?_append_left hi, Array.getElem?_append_left hi]
    · obtain ⟨i, rfl⟩ := Nat.exists_eq_add_of_le' hi
      rw [Array.getElem?_append_right hi, Array.getElem?_append_right hi, Nat.add_sub_cancel,
        Array.getElem?_map, Array.getElem?_map, Array.getElem?_modify]
      by_cases hr : r = i
      · rw [if_pos (by omega), if_pos hr, Option.map_map, Option.map_map]
        exact congrArg (Option.map · μ.heap[i]?) (funext fun o => (hf o).symm)
      · rw [if_neg (by omega), if_neg hr]
  write {μ ν} h k v _ := by
    refine ⟨h.1, fun k' => ?_, h.2.2⟩
    rw [Table.get?_insert, Table.get?_insert]
    split
    · rfl
    · exact h.2.1 k'
  enter h := ⟨h.1, h.2.1, congrArg (· + 1) h.2.2⟩
  leave h := ⟨h.1, h.2.1, congrArg (· - 1) h.2.2⟩

/-! ## The static fields that are written -/

namespace Typing

/-- What is written are static fields of the program, named by the classes that they belong to. -/
def WritesStatics (env : Env) (ws : List (String × String)) : Prop :=
  ∀ w ∈ ws, ∃ c n f, env.lookupField? c n = some f ∧ f.isStatic = true ∧ w = (f.owner, f.name)

theorem WritesStatics.nil (env : Env) : WritesStatics env [] := fun _ h => absurd h List.not_mem_nil

theorem WritesStatics.append {env : Env} {ws vs : List (String × String)}
    (hw : WritesStatics env ws) (hv : WritesStatics env vs) : WritesStatics env (ws ++ vs) :=
  fun w h => (List.mem_append.mp h).elim (hw w) (hv w)

theorem Elab.staticWrites {s : Scope} {e : Surface.Expr} {span : Span} {type : Ty} {c n : String}
    {cs : List CallSite} (h : Elab s e (.staticField span type c n) cs) :
    WritesStatics s.env [(c, n)] := by
  intro w hw
  obtain rfl := List.mem_singleton.mp hw
  cases h with
  | ownStatic hf hs | classField _ hf hs | staticField _ _ hf hs => exact ⟨_, _, _, hf, hs, rfl⟩

mutual

theorem ElabStmt.staticWrites {k : BodyKind} {s s' : Scope} {c : Surface.Stmt} {t : Stmt}
    {cs : List CallSite} (h : ElabStmt k s c t s' cs) :
    s'.env = s.env ∧ WritesStatics s.env t.staticWrites := by
  cases h with
  | declare | declareInit | setVar | setField | setIndex | expr | retVoid | ret | throw =>
      exact ⟨rfl, .nil s.env⟩
  | setStatic _ ht => exact ⟨rfl, ht.staticWrites⟩
  | branch _ _ ha hb => exact ⟨rfl, ha.staticWrites.2.append hb.staticWrites⟩
  | loop _ _ hb => exact ⟨rfl, hb.staticWrites.2⟩
  | attempt hb hh hc =>
      exact ⟨rfl, hb.staticWrites.append (hh.staticWrites.append hc.staticWrites)⟩
  | block hb => exact ⟨rfl, hb.staticWrites⟩

theorem ElabElse.staticWrites {k : BodyKind} {s : Scope} {c : Option Surface.Stmt}
    {t : Option Stmt} {cs : List CallSite} (h : ElabElse k s c t cs) :
    WritesStatics s.env (Typed.elseStaticWrites t) := by
  cases h with
  | none => exact .nil s.env
  | some hb => exact hb.staticWrites.2

theorem ElabStmts.staticWrites {k : BodyKind} {s : Scope} {cs : List Surface.Stmt}
    {ts : List Stmt} {ds : List CallSite} (h : ElabStmts k s cs ts ds) :
    WritesStatics s.env (Typed.stmtsStaticWrites ts) := by
  cases h with
  | nil => exact .nil s.env
  | cons hc hr =>
      obtain ⟨hs, hwrites⟩ := hc.staticWrites
      exact hwrites.append (hs ▸ hr.staticWrites)

theorem ElabCleanup.staticWrites {k : BodyKind} {s : Scope} {b : Option Surface.Block}
    {t : Option (List Stmt)} {cs : List CallSite} (h : ElabCleanup k s b t cs) :
    WritesStatics s.env (Typed.cleanupStaticWrites t) := by
  cases h with
  | none => exact .nil s.env
  | some hb => exact hb.staticWrites

theorem ElabHandlers.staticWrites {k : BodyKind} {s : Scope} {hs : List Surface.Handler}
    {ts : List Typed.Handler} {cs : List CallSite} (h : ElabHandlers k s hs ts cs) :
    WritesStatics s.env (Typed.handlersStaticWrites ts) := by
  cases h with
  | nil => exact .nil s.env
  | cons _ _ hb hr => exact WritesStatics.append hb.staticWrites hr.staticWrites

end

theorem ElabBody.staticWrites {k : BodyKind} {s : Scope} {b : List Surface.Stmt} {ts : List Stmt}
    {cs : List CallSite} (h : ElabBody k s b ts cs) :
    WritesStatics s.env (Typed.stmtsStaticWrites ts) := by
  cases h with
  | plain hs => exact hs.staticWrites
  | super _ _ _ _ _ hr => exact hr.staticWrites

/-- The body of a member or of an initializer block writes static fields of the program only. -/
theorem body_staticWrites {p : Surface.Program} (hp : p.WellFormed) {env : Env}
    (h : checkProgram p = .ok env) {id : DeclId} {body : List Stmt}
    (hb : env.body? id = some body) : WritesStatics env (Typed.stmtsStaticWrites body) := by
  rcases body_cases hp h hb with ⟨_, rfl⟩ | ⟨t, m, _, hmade⟩
  · exact .nil env
  · obtain ⟨env₀, cs, _, hdecls, hm, _⟩ := hmade.rules
    have hwrites : WritesStatics env₀ (Typed.stmtsStaticWrites body) := by
      cases hm with
      | body _ _ _ he => exact he.staticWrites
      | block he => exact he.staticWrites
    intro w hw
    obtain ⟨c, n, f, hf, hs, heq⟩ := hwrites w hw
    exact ⟨c, n, f, (hdecls.lookupField? c n).trans hf, hs, heq⟩

end Typing

/-! ## Between runs -/

/-- A static field gets its first value whatever was there before. -/
theorem Table.get?_insertAll_congr {κ α : Type} [DecidableEq κ] {t t' : Table κ α}
    (es : List (κ × α)) (h : ∀ k, k ∉ es.map (·.1) → t.get? k = t'.get? k) (k : κ) :
    (t.insertAll es).get? k = (t'.insertAll es).get? k := by
  induction es generalizing t t' with
  | nil => exact h k List.not_mem_nil
  | cons e es ih =>
      show ((t.insert e.1 e.2).insertAll es).get? k = ((t'.insert e.1 e.2).insertAll es).get? k
      refine ih fun k' hk' => ?_
      rw [get?_insert, get?_insert]
      split
      · rfl
      · next hne => exact h k' fun hmem => (List.mem_cons.mp hmem).elim (hne ·.symm) hk'

namespace Run

/-- The keys of the static fields that a program declares. -/
def StaticKey (env : Env) (k : String × String) : Prop :=
  k ∈ (staticFields env).map fun f => (f.owner, f.name)

theorem staticKey_of_mem {env : Env} : ∀ f ∈ staticFields env, StaticKey env (f.owner, f.name) :=
  fun f hf => List.mem_map.mpr ⟨f, hf, rfl⟩

/-- Nothing is left of the members of a run, and the static fields that it wrote are declared. -/
structure Idle (env : Env) (μ : Machine) : Prop where
  depth : μ.depth = 0
  statics : ∀ k, ¬StaticKey env k → μ.statics.get? k = none

theorem not_mem_defaults {env : Env} {k : String × String} (hk : ¬StaticKey env k) :
    k ∉ ((staticFields env).map fun f => ((f.owner, f.name), Value.default f.type)).map (·.1) := by
  rw [List.map_map]
  exact hk

/-- When a run has begun, the static fields are as on a fresh machine. -/
theorem Idle.reset {env : Env} {μ : Machine} (h : Idle env μ) :
    (Comparison.behind μ.heap).machine (reset env .initial) (reset env μ) := by
  refine ⟨?_, fun k => ?_, h.depth⟩
  · show μ.heap = μ.heap ++ Array.map _ #[]
    rw [Array.map_empty, Array.append_empty]
  · let es := (staticFields env).map fun f => ((f.owner, f.name), Value.default f.type)
    have hreset : (μ.statics.insertAll es).get? k = (Table.ofList es).get? k := by
      refine Table.get?_insertAll_congr es (fun k hk => ?_) k
      rw [Table.get?_empty]
      exact h.statics k fun hmem => hk (by rw [List.map_map]; exact hmem)
    have hsame : (Table.ofList es).mapValues (Value.rename (· + μ.heap.size)) = .ofList es := by
      rw [Table.mapValues_ofList, List.map_map]
      simp only [Function.comp_def, Value.rename_default]
      rfl
    show (μ.statics.insertAll es).get? k = ((Table.ofList es).get? k).map _
    rw [hreset, ← Table.get?_mapValues, hsame]

/-- How a run ended, with other references. -/
def renameEnd (ρ : Ref → Ref) : Except RunError Outcome → Except RunError Outcome
  | .ok o => .ok (o.rename ρ)
  | .error e => .error (e.rename ρ)

theorem findEntry_rename {env : Env} {entry : String} {e : RunError}
    (h : findEntry env entry = .error e) (ρ : Ref → Ref) : e.rename ρ = e := by
  cases e with
  | internal d => exact absurd h findEntry_not_internal
  | recursionLimit | unknownEntry | badEntry | noImplementation => rfl

theorem toOutcome_compares {K : Comparison} {μ ν : Machine} (hm : K.machine μ ν)
    (r : Except Unwind Value) :
    ∃ o, toOutcome r μ = some (o, μ) ∧
      toOutcome (K.result (Value.rename K.ref) r) ν = some (renameEnd K.ref o, ν) := by
  rcases r with (e | v | e) | v
  · refine ⟨_, rfl, ?_⟩
    have hclass : ν.heap.className? (K.ref e) = μ.heap.className? e := by
      rw [Heap.className?, K.heap hm, Heap.className?, Option.bind_map]
      exact congrArg (μ.heap[e]?.bind ·) (funext (Obj.className?_rename K.ref))
    show some (Except.ok (Outcome.threw ((ν.heap.className? (K.ref e)).getD "")), ν) = _
    rw [hclass]
    rfl
  all_goals exact ⟨_, rfl, rfl⟩

end Run

namespace WovenProgram

open Run (BodiesWriteIn Idle StaticKey renameEnd staticFields)

variable {p : WovenProgram} {K : Comparison}

/-- Runs from an entry point that exists end alike on machines that correspond, or both do not
end. -/
theorem run_compares (hw : BodiesWriteIn K p.env)
    (hkeys : ∀ f ∈ staticFields p.env, K.keys (f.owner, f.name)) (hl : ¬K.lenient)
    (limit bound : Nat) {entry : String} {main : DeclId} (he : Run.findEntry p.env entry = .ok main)
    {μ ν : Machine} (hm : K.machine (Run.reset p.env μ) (Run.reset p.env ν)) :
    (p.run limit bound entry μ = none ∧ p.run limit bound entry ν = none) ∨
      ∃ o μ' ν', p.run limit bound entry μ = some (o, μ') ∧
        p.run limit bound entry ν = some (renameEnd K.ref o, ν') ∧ K.machine μ' ν' := by
  rw [p.run_eq limit bound he, p.run_eq limit bound he]
  have hcalls := Run.calls_compares hw (.inl (Eq.refl limit)) bound
  rcases (Run.runFrom_compares hcalls hkeys main hm).strict hl with
    ⟨hx, hy⟩ | ⟨r, μ', ν', hx, hy, hm'⟩
  · exact .inl ⟨by rw [hx]; rfl, by rw [hy]; rfl⟩
  · obtain ⟨o, ho, ho'⟩ := Run.toOutcome_compares hm' r
    exact .inr ⟨o, μ', ν', by rw [hx]; exact ho, by rw [hy]; exact ho', hm'⟩

/-- The members that a run activates are left, and what it writes is declared. -/
theorem Reached.idle (hw : BodiesWriteIn (.same (StaticKey p.env) False) p.env) {limit : Nat}
    {μ : Machine} (h : p.Reached limit μ) : Idle p.env μ := by
  induction h with
  | initial => exact ⟨rfl, fun k _ => Table.get?_empty k⟩
  | @run μ bound entry r μ' _ hrun ih =>
      refine ⟨(p.activity_bounded entry limit bound ih.depth).2.1 r μ' hrun, ?_⟩
      cases he : Run.findEntry p.env entry with
      | error e =>
          rw [WovenProgram.run, he] at hrun
          cases hrun
          exact ih.statics
      | ok main =>
          have hreset : (Comparison.same (StaticKey p.env) False).machine (Run.reset p.env μ)
              (Run.reset p.env μ) :=
            ⟨rfl, fun k hk => (Table.get?_insertAll_of_not_mem (Run.not_mem_defaults hk)).trans
              (ih.statics k hk)⟩
          rcases run_compares hw Run.staticKey_of_mem id limit bound he hreset with
            ⟨hx, _⟩ | ⟨o, μ₁, _, hx, _, hm⟩
          · cases hrun.symm.trans hx
          · cases hrun.symm.trans hx
            exact hm.2

/-- A run after others does what it does on a fresh machine, behind the objects of the others. -/
theorem run_behind {μ : Machine} (hμ : Idle p.env μ) (limit bound : Nat) (entry : String) :
    (p.run limit bound entry μ).map (fun x => (x.1, x.2.heap)) =
      (p.run limit bound entry .initial).map fun x =>
        (renameEnd (· + μ.heap.size) x.1,
          μ.heap ++ x.2.heap.map (Obj.rename (· + μ.heap.size))) := by
  cases he : Run.findEntry p.env entry with
  | error e =>
      have hfresh : Array.map (Obj.rename (· + μ.heap.size)) Machine.initial.heap = #[] :=
        Array.map_empty
      have hend : renameEnd (· + μ.heap.size) (.error e) = .error e := by
        rw [renameEnd, Run.findEntry_rename he]
      rw [run, he]
      show some _ = some (renameEnd _ (.error e), μ.heap ++ Array.map _ Machine.initial.heap)
      rw [hend, hfresh, Array.append_empty]
  | ok main =>
      rcases run_compares (K := .behind μ.heap) (fun _ _ _ _ _ => trivial) (fun _ _ => trivial) id
        limit bound he hμ.reset with ⟨hx, hy⟩ | ⟨o, ν, ν', hx, hy, hm⟩
      · rw [hx, hy]
        rfl
      · rw [hx, hy, Option.map_some, Option.map_some, hm.1]
        rfl

end WovenProgram

/-! ## Builds -/

/-- The bodies of a build write static fields that are declared. -/
theorem bodiesWriteIn_of_build {source : String} {checks : Checks} {b : Build}
    (h : build source checks = .ok b) :
    Run.BodiesWriteIn (.same (Run.StaticKey b.program.env) False) b.program.env := by
  obtain ⟨p, hp, hcheck⟩ := checkProgram_of_build h
  have hd := Env.declaredBy_of_check hp hcheck
  intro id body hb w hw
  obtain ⟨c, n, f, hf, hs, rfl⟩ := Typing.body_staticWrites hp hcheck hb w hw
  have hmem := (Env.mem_of_lookupField? hf).1
  show Run.StaticKey _ (Run.staticKey _ f.owner f.name)
  rw [Run.staticKey_eq (hd.lookupField?_owner hmem)]
  exact Run.staticKey_of_mem f ((Run.mem_staticFields hd).mpr ⟨(hd.mem_fieldsOf.mp hmem).1, hs⟩)

/-- Runs that follow one another do not depend on each other. After any runs, however they ended, a
run ends as it does on a fresh machine, with the references moved up behind the objects that there
are already; those stay as they were. -/
theorem runs_independent {source : String} {checks : Checks} {b : Build}
    (h : build source checks = .ok b) (limit : Nat) {μ : Machine}
    (hμ : b.program.Reached limit μ) (bound : Nat) (entry : String) :
    (b.program.run limit bound entry μ).map (fun x => (x.1, x.2.heap)) =
      ((b.program.run limit bound entry .initial).map fun x =>
        (Run.renameEnd (· + μ.heap.size) x.1,
          μ.heap ++ x.2.heap.map (Obj.rename (· + μ.heap.size)))) ∧
    ∀ r μ', b.program.run limit bound entry μ = some (r, μ') →
      ∀ i, i < μ.heap.size → μ'.heap[i]? = μ.heap[i]? := by
  have hbehind := WovenProgram.run_behind (hμ.idle (bodiesWriteIn_of_build h)) limit bound entry
  refine ⟨hbehind, fun r μ' hrun i hi => ?_⟩
  rw [hrun, Option.map_some] at hbehind
  obtain ⟨x, _, hx⟩ := Option.map_eq_some_iff.mp hbehind.symm
  rw [← (Prod.mk.inj hx).2, Array.getElem?_append_left hi]

/-- One entry point leaves objects behind, one of them in a static field, and another makes one. -/
def againSource : String :=
  "class Main {
    static Main kept;
    static int spoil() { kept = new Main(); return 1 / 0; }
    static Main make() { return new Main(); }
  }"

/-- Evaluates what is said of `againSource`. -/
def againCheck : Option Bool := do
  let b ← (build againSource {}).toOption
  let (.ok (.threw _), μ) ← b.program.run 4 8 "Main.spoil" .initial | none
  let (.ok (.returned (.ref 0)), _) ← b.program.run 4 8 "Main.make" .initial | none
  return μ.heap.size == 2

/-- The object is the first one on a fresh machine, and comes behind the two of a run that an
exception ended, which stay as they were. -/
theorem runs_independent_again :
    ∃ b c μ μ₀ μ₁, build againSource {} = .ok b ∧
      b.program.run 4 8 "Main.spoil" .initial = some (.ok (.threw c), μ) ∧
      b.program.run 4 8 "Main.make" .initial = some (.ok (.returned (.ref 0)), μ₀) ∧
      b.program.run 4 8 "Main.make" μ = some (.ok (.returned (.ref 2)), μ₁) ∧
      ∀ i, i < 2 → μ₁.heap[i]? = μ.heap[i]? := by
  have h : againCheck = some true := by
    set_option maxRecDepth 20000 in
    rw [againCheck, show againSource = String.ofList _ from rfl, build_ofList]
    decide +kernel
  rw [againCheck] at h
  obtain ⟨b, hb, h⟩ := Option.bind_eq_some_iff.mp h
  obtain ⟨⟨o, μ⟩, hspoil, h⟩ := Option.bind_eq_some_iff.mp h
  split at h
  · next c μ heq =>
      obtain ⟨rfl, rfl⟩ := Prod.mk.inj heq
      obtain ⟨⟨o, μ₀⟩, hfresh, h⟩ := Option.bind_eq_some_iff.mp h
      split at h
      · next μ₀ heq =>
          obtain ⟨rfl, rfl⟩ := Prod.mk.inj heq
          have hsize : μ.heap.size = 2 := by simpa using h
          have hreached : b.program.Reached 4 μ := .run .initial hspoil
          obtain ⟨hbehind, hkept⟩ := runs_independent (ok_of_toOption hb) 4 hreached 8 "Main.make"
          rw [hfresh, Option.map_some, hsize] at hbehind
          obtain ⟨⟨r, μ₁⟩, hrun, hend⟩ := Option.map_eq_some_iff.mp hbehind
          obtain rfl : r = .ok (.returned (.ref 2)) := (Prod.mk.inj hend).1
          exact ⟨b, c, μ, μ₀, μ₁, ok_of_toOption hb, hspoil, hfresh, hrun,
            fun i hi => hkept _ μ₁ hrun i (hsize ▸ hi)⟩
      · cases h
  · cases h

end Covenant
