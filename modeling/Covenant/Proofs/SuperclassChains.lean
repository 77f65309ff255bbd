import Covenant.Proofs.CheckedProgram

/-!
# Chains of superclasses

The chain of a class is made with a bound and with the classes that have been seen. In a
program that was declared no class is among its own superclasses, so neither matters:
the chain of a class is the class and the chain of its superclass, and no class is in it
twice.
-/

namespace Covenant

open Relation (ReflTransGen)

namespace Env.DeclaredBy

variable {p : Surface.Program} {env : Env} (h : env.DeclaredBy p)

include h

omit h in
/-- A known class has not been seen by a chain that does not come back to what it has, and the
bound suffices for it. -/
theorem room_of_unseen {n : Nat} {seen : List String} {name : String} {info : ClassInfo}
    (hi : env.class? name = some info) (hn : env.unseen seen ≤ n)
    (hseen : ∀ x ∈ seen, ¬ ReflTransGen env.Names name x) :
    name ∉ seen ∧ ∃ m, n = m + 1 ∧ env.unseen (name :: seen) ≤ m := by
  have hnew : name ∉ seen := fun hmem => hseen name hmem .refl
  have hlt := unseen_cons hi hnew
  exact ⟨hnew, n - 1, by omega, by omega⟩

/-- What lies behind a class does not come back to it. -/
theorem unseen_behind {name s : String} {info : ClassInfo} (hi : env.class? name = some info)
    (hs : info.superclass = some s) {seen : List String}
    (hseen : ∀ x ∈ seen, ¬ ReflTransGen env.Names name x) :
    ∀ x ∈ name :: seen, ¬ ReflTransGen env.Names s x := by
  have hnames : env.Names name s := Extends.names ⟨info, hi, hs⟩
  refine List.forall_mem_cons.mpr ⟨h.irreflexive hnames, fun x hx hreach => ?_⟩
  exact hseen x hx (.head hnames hreach)

/-- What has been seen does not matter for a chain that does not come by it, nor does the bound if
there is room for all that has not been seen. -/
theorem chainFrom_eq {n k : Nat} {seen seen' : List String} {name : String}
    (hn : env.unseen seen ≤ n) (hk : env.unseen seen' ≤ k)
    (hseen : ∀ x ∈ seen, ¬ ReflTransGen env.Names name x)
    (hseen' : ∀ x ∈ seen', ¬ ReflTransGen env.Names name x) :
    chainFrom env n seen name = chainFrom env k seen' name := by
  induction n generalizing k seen seen' name with
  | zero =>
      cases hi : env.class? name with
      | none => cases k <;> simp [chainFrom, hi]
      | some info =>
          obtain ⟨_, _, heq, _⟩ := room_of_unseen hi hn hseen
          cases heq
  | succ n ih =>
      cases hi : env.class? name with
      | none => cases k <;> simp [chainFrom, hi]
      | some info =>
          obtain ⟨hnew, _, heq, hn'⟩ := room_of_unseen hi hn hseen
          obtain ⟨hnew', k, rfl, hk'⟩ := room_of_unseen hi hk hseen'
          cases heq
          rw [chainFrom, chainFrom, hi]
          simp only [List.contains_iff_mem, hnew, hnew', if_false]
          refine congrArg (info :: ·) ?_
          cases hs : info.superclass with
          | none => rfl
          | some s => exact ih hn' hk' (h.unseen_behind hi hs hseen) (h.unseen_behind hi hs hseen')

/-- The chain of a class goes on with that of its superclass. -/
theorem classChain_super {name : String} {info : ClassInfo} (hi : env.class? name = some info) :
    env.classChain name = info :: info.superclass.elim [] env.classChain := by
  have hall : env.unseen [] ≤ env.classes.size := by
    rw [unseen, Table.size]
    exact List.length_filter_le _ _
  obtain ⟨_, m, hsize, hroom⟩ := room_of_unseen hi hall (List.forall_mem_nil _)
  rw [classChain, hsize, chainFrom, hi]
  refine congrArg (info :: ·) ?_
  cases hs : info.superclass with
  | none => rfl
  | some s =>
      exact h.chainFrom_eq hroom hall (h.unseen_behind hi hs (List.forall_mem_nil _))
        (List.forall_mem_nil _)

/-- No class is met twice. -/
theorem classChain_nodup (name : String) : ((env.classChain name).map (·.name)).Nodup := by
  induction hn : (env.classChain name).length using Nat.strong_induction_on generalizing name with
  | _ n ih =>
      cases hi : env.class? name with
      | none =>
          rw [classChain]
          cases env.classes.size <;> simp [chainFrom, hi]
      | some info =>
          have hchain := h.classChain_super hi
          rw [hchain, List.map_cons]
          cases hs : info.superclass with
          | none => exact List.nodup_cons.mpr ⟨List.not_mem_nil, List.nodup_nil⟩
          | some s =>
              rw [hs, Option.elim] at hchain
              have hshorter : (env.classChain s).length < n := by
                rw [← hn, hchain]
                exact Nat.lt_succ_self _
              refine List.nodup_cons.mpr ⟨fun hmem => ?_, ih _ hshorter s rfl⟩
              -- A class behind its superclass would be its own superclass.
              obtain ⟨info', hmem, hname⟩ := List.mem_map.mp hmem
              obtain ⟨c, hc, hreach⟩ := mem_classChain.mp hmem
              obtain rfl : c = name := (h.name_eq hc).symm.trans (hname.trans (h.name_eq hi))
              exact h.irreflexive (Extends.names ⟨info, hi, hs⟩)
                (hreach.lift id fun _ _ => Extends.names)

end Env.DeclaredBy

end Covenant
