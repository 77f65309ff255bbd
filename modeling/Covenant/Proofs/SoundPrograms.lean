import Covenant.Proofs.Refinement
import Covenant.Proofs.SoundMembers

/-!
# Runs keep types

Several runs go on one after the other on one heap. Each gives all static fields
values first, so all that has to be known of a machine between runs is that its
objects have their shapes. A program that fits then never ends in a defect, however
often and from which entry points it is run.
-/

namespace Covenant

namespace Run

section

variable {env : Env} {p : Surface.Program} {σ : Shapes} (hd : env.DeclaredBy p)

include hd

theorem mem_staticFields {f : FieldInfo} :
    f ∈ staticFields env ↔ env.field? f.id = some f ∧ f.isStatic = true := by
  rw [staticFields, List.mem_filter]
  refine and_congr_left fun _ => ⟨fun h => ?_, fun h => ?_⟩
  · obtain ⟨id, _, hget⟩ := List.mem_filterMap.mp h
    obtain rfl := (hd.field_cases id f hget).1
    exact hget
  · obtain ⟨info, hi, hid⟩ := hd.type_of_field h
    exact List.mem_filterMap.mpr ⟨f.id, List.mem_flatMap.mpr
      ⟨info, List.mem_map.mpr ⟨_, Table.mem_of_get? hi, rfl⟩, hid⟩, h⟩

/-- At first every static field has the value of its type, whatever was there before. -/
theorem resetStatics_typed {μ : Machine} (hμ : μ.heap.Typed env σ) :
    Machine.Typed env σ { μ with
      statics := μ.statics.insertAll
        ((staticFields env).map fun f => ((f.owner, f.name), Value.default f.type)) } := by
  refine ⟨hμ, fun id f hf hs => ?_⟩
  obtain rfl := (hd.field_cases id f hf).1
  obtain ⟨v, hget, hv⟩ := Table.exists_get?_insertAll (t := μ.statics)
    (List.mem_map_of_mem (f := fun f : FieldInfo => ((f.owner, f.name), Value.default f.type))
      ((mem_staticFields hd).mpr ⟨hf, hs⟩))
  obtain ⟨g, hg, heq⟩ := List.mem_map.mp hv
  obtain ⟨hkey, rfl⟩ := Prod.mk.inj heq
  obtain rfl := eq_of_key hd ((mem_staticFields hd).mp hg).1 hf hkey
  obtain ⟨info, hi, hid⟩ := hd.type_of_field hf
  obtain ⟨f', hf', _, _, hstored, _⟩ := hd.field_of_type hi hid
  obtain rfl := Option.some.inj (hf.symm.trans hf')
  exact ⟨_, hget, Value.hasType_default hstored⟩

theorem evalStatics_sound (hret : env.ReturnsAgree) {calls : Calls} (hcalls : calls.Sound env)
    (hb : env.BodiesFit) {fields : List FieldInfo}
    (hfields : ∀ f ∈ fields, env.field? f.id = some f ∧ f.isStatic = true) {σ : Shapes} :
    Sound env σ (evalStatics env calls fields) fun _ _ => True := by
  induction fields generalizing σ with
  | nil => exact .pure trivial
  | cons f fields ih =>
      obtain ⟨⟨hf, hs⟩, hfields⟩ := List.forall_mem_cons.mp hfields
      simp only [evalStatics]
      cases hinit : env.fieldInits.get? f.id with
      | none => exact ih hfields
      | some init =>
          obtain ⟨hfit, ha⟩ := hb.init f init hf hinit
          simp only [hs, if_true] at hfit
          have hframe : Frame.Typed env σ (.ofBody none []) (Frame.start f.id none []) :=
            .start fun c hc => absurd hc (by simp)
          refine (eval_sound hd hret hcalls hframe hfit).bind fun σ₁ v _ hv => ?_
          exact (writeStatic_sound hd hf (hv.assign ha)).bind fun σ₂ _ _ _ => ih hfields

/-- An entry point is a static method that takes nothing. -/
theorem findEntry_ok {entry : String} {id : DeclId} (h : findEntry env entry = .ok id) :
    ∃ m, env.method? m.id = some m ∧ m.id = id ∧ m.isStatic = true ∧ m.params = [] := by
  rw [findEntry] at h
  split at h
  · cases h
  · next c name _ =>
      split at h
      · cases h
      · split at h
        · next m hm =>
            cases h
            have hprop := List.find?_some hm
            rw [Bool.and_eq_true] at hprop
            obtain ⟨hget, _⟩ := hd.mem_lookupMethods.mp (List.mem_of_find?_eq_some hm)
            exact ⟨m, hget, rfl, hprop.1, by simpa using hprop.2⟩
        · cases h

omit hd in
theorem findEntry_not_internal {entry : String} {d : Defect} :
    findEntry env entry ≠ .error (.internal d) := by
  rw [findEntry]
  split
  · simp
  · split
    · simp
    · split <;> simp

/-- A run from an entry point ends without a defect, on a typed heap whatever the static fields have
been before. -/
theorem runFrom_sound {calls : Calls} (hret : env.ReturnsAgree) (hcalls : calls.Sound env)
    (hb : env.BodiesFit) {entry : String} {id : DeclId} (hid : findEntry env entry = .ok id)
    {μ μ' : Machine} (hμ : μ.heap.Typed env σ) {r : Except Unwind Value}
    (h : (runFrom env calls id).ends μ = some (r, μ')) :
    ∃ σ' : Shapes, σ <+: σ' ∧ μ'.Typed env σ' ∧ σ'.Admits (fun _ => True) r := by
  obtain ⟨m, hm, rfl, hs, hp⟩ := findEntry_ok hd hid
  have hfields : ∀ f ∈ staticFields env, env.field? f.id = some f ∧ f.isStatic = true :=
    fun f hf => (mem_staticFields hd).mp hf
  have hrest : Sound env σ (evalStatics env calls (staticFields env) >>= fun _ =>
      calls.invoke m.id none []) fun _ _ => True := by
    refine (evalStatics_sound hd hret hcalls hb hfields).bind fun σ₁ _ _ _ => ?_
    refine (hcalls.invoke hm (fun h => absurd (hs.symm.trans h) (by simp)) ?_).mono
      fun _ _ _ _ => trivial
    rw [MethodInfo.paramTypes, hp]
    exact .nil
  exact hrest (resetStatics_typed hd hμ) h

end

end Run

/-! ## Runs after runs -/

/-- The machines between runs on one heap: a fresh one, and what a run from any entry point leaves,
within any bound. -/
inductive WovenProgram.Reached (p : WovenProgram) (limit : Nat) : Machine → Prop
  | initial : Reached p limit .initial
  | run {μ bound entry r μ'} (before : Reached p limit μ)
      (run : p.run limit bound entry μ = some (r, μ')) : Reached p limit μ'

namespace WovenProgram

variable {p : WovenProgram} {source : Surface.Program} (hd : p.env.DeclaredBy source)
  (hret : p.env.ReturnsAgree) (hfits : p.Fits) {limit : Nat}

include hd hret hfits

/-- One run on a typed heap leaves one, and does not end in a defect. -/
theorem run_sound {σ : Shapes} {bound : Nat} {entry : String} {μ μ' : Machine}
    {r : Except RunError Outcome} (hμ : μ.heap.Typed p.env σ)
    (h : p.run limit bound entry μ = some (r, μ')) :
    (∃ σ' : Shapes, σ <+: σ' ∧ μ'.heap.Typed p.env σ') ∧ ∀ d, r ≠ .error (.internal d) := by
  cases he : Run.findEntry p.env entry with
  | error e =>
      rw [run, he] at h
      cases h
      refine ⟨⟨σ, List.prefix_rfl, hμ⟩, fun d heq => ?_⟩
      exact Run.findEntry_not_internal (Except.error.inj heq ▸ he)
  | ok id =>
      rw [run_eq p limit _ he] at h
      obtain ⟨⟨x, μ₁⟩, hx, hend⟩ := Option.bind_eq_some_iff.mp h
      obtain ⟨σ', hσ', hμ₁, hadmits⟩ := Run.runFrom_sound hd hret
        (Run.calls_sound hd hret hfits limit bound) hfits.bodies he hμ hx
      cases x with
      | ok v =>
          cases hend
          exact ⟨⟨σ', hσ', hμ₁.heap⟩, fun d heq => by cases heq⟩
      | error u =>
          cases u with
          | throw e =>
              cases hend
              exact ⟨⟨σ', hσ', hμ₁.heap⟩, fun d heq => by cases heq⟩
          | violation v =>
              cases hend
              exact ⟨⟨σ', hσ', hμ₁.heap⟩, fun d heq => by cases heq⟩
          | fatal e =>
              cases hend
              refine ⟨⟨σ', hσ', hμ₁.heap⟩, fun d heq => ?_⟩
              cases heq
              exact hadmits d rfl

/-- However many runs there have been, the heap is typed. -/
theorem Reached.typed {μ : Machine} (h : p.Reached limit μ) :
    ∃ σ : Shapes, μ.heap.Typed p.env σ := by
  induction h with
  | initial => exact ⟨[], .empty⟩
  | run _ hrun ih =>
      obtain ⟨σ, hσ⟩ := ih
      obtain ⟨⟨σ', _, hσ'⟩, _⟩ := run_sound hd hret hfits hσ hrun
      exact ⟨σ', hσ'⟩

end WovenProgram

end Covenant
