import Covenant.Proofs.DepthLimits
import Covenant.Proofs.ProgramJourneys
import Covenant.Proofs.SoundPrograms

/-!
# References lead to objects

A run comes through the moments of its journey, and from one to the next the
machine changes once at most. So a property of all moments is one of every state of
the run, and a property of all changes is one of every stretch of it. No assumption
is made of the program: an ill-typed one stops with a defect where it would read
what is not there.
-/

namespace Covenant

open HasRefs (refs)

theorem Route.isChain {μ μ' : Machine} {l : List Machine} (h : Route μ l μ') :
    (μ :: l).IsChain Machine.Step ∧ (μ :: l).getLast (List.cons_ne_nil _ _) = μ' := by
  induction h with
  | nil => exact ⟨.singleton _, rfl⟩
  | @cons μ μ₁ μ' l hstep _ ih =>
      exact ⟨.cons_cons hstep ih.1, by rw [List.getLast_cons (List.cons_ne_nil _ _)]; exact ih.2⟩

theorem Run.refs_toOutcome {r : Except Unwind Value} {v : Value} {μ μ' : Machine}
    (h : toOutcome r μ = some (.ok (.returned v), μ')) : r = .ok v := by
  rcases r with (_ | _ | _) | v' <;> cases h
  rfl

namespace WovenProgram

variable (p : WovenProgram) (limit bound : Nat) (entry : String)

/-- The machine as it is at first, and as it is at each moment of a run. -/
def machines (μ : Machine) : List Machine :=
  μ :: (p.moments limit bound entry μ).map Moment.machine

variable {p limit bound entry}

theorem ends_of_run {μ μ' : Machine} {o : Except RunError Outcome}
    (h : p.run limit bound entry μ = some (o, μ')) :
    ∃ r, (p.entered limit bound entry).ends μ = some (r, μ') ∧
      Run.toOutcome r μ' = some (o, μ') := by
  rw [p.run_eq_entered] at h
  obtain ⟨⟨r, μ₁⟩, hends, hout⟩ := Option.bind_eq_some_iff.mp h
  obtain rfl := Run.toOutcome_machine hout
  exact ⟨r, hends, hout⟩

/-- A run leaves the last of its machines. -/
theorem getLast_machines {μ μ' : Machine} {o : Except RunError Outcome}
    (h : p.run limit bound entry μ = some (o, μ')) :
    (p.machines limit bound entry μ).getLast (List.cons_ne_nil _ _) = μ' := by
  obtain ⟨r, hends, _⟩ := ends_of_run h
  obtain ⟨μ₁, hroute, hend⟩ := (p.journey limit bound entry).route μ
  exact hroute.isChain.2.trans (hend hends).symm

/-- A run on a machine without stray references leaves such a machine, and returns none. -/
theorem run_closed {μ μ' : Machine} {o : Except RunError Outcome} (hμ : μ.Closed)
    (h : p.run limit bound entry μ = some (o, μ')) :
    μ'.Closed ∧ ∀ v, o = .ok (.returned v) → Below μ'.heap.size (refs v) := by
  obtain ⟨r, hends, hout⟩ := ends_of_run h
  have hend := (p.journey limit bound entry).ends ⟨hμ, .nil⟩ hends
  refine ⟨hend.closed, fun v hv => ?_⟩
  obtain rfl := Run.refs_toOutcome (hv ▸ hout)
  exact (Below.append.mp hend.below).2.subset (List.subset_append_left ..)

/-- However many runs there have been, no reference leads off the heap. -/
theorem Reached.closed {μ : Machine} (h : p.Reached limit μ) : μ.Closed := by
  induction h with
  | initial => exact .initial
  | run _ hrun ih => exact (run_closed ih hrun).1

/-- In every run, on a machine that any runs left, every reference of a frame or of the machine
leads to an object at each moment. From one moment to the next the machine changes once at most,
which takes no object from the heap and leaves each its class, or its length if it is an array. -/
theorem references_lead {μ : Machine} (hμ : p.Reached limit μ) (bound : Nat) (entry : String) :
    (∀ m ∈ p.moments limit bound entry μ, m.Closed) ∧
    (p.machines limit bound entry μ).IsChain
      (fun before after => before.Step after ∧ Heap.Kept before.heap after.heap) ∧
    ∀ o μ', p.run limit bound entry μ = some (o, μ') →
      (p.machines limit bound entry μ).getLast (List.cons_ne_nil _ _) = μ' ∧
      Heap.Kept μ.heap μ'.heap ∧ μ'.Closed ∧
      ∀ v, o = .ok (.returned v) → Below μ'.heap.size (refs v) := by
  refine ⟨?_, ?_, fun o μ' hrun => ⟨getLast_machines hrun, ?_, run_closed hμ.closed hrun⟩⟩
  · exact (p.journey limit bound entry).closed ⟨hμ.closed, .nil⟩
  · obtain ⟨_, hroute, _⟩ := (p.journey limit bound entry).route μ
    exact hroute.isChain.1.imp fun _ _ hstep => ⟨hstep, hstep.kept⟩
  · obtain ⟨r, hends, _⟩ := ends_of_run hrun
    exact (p.journey limit bound entry).kept hends

end WovenProgram

/-- Objects in an array, in a field and in a static field, until an index is out of bounds. -/
def nodesSource : String :=
  "class Node {
    int value;
    Node next;
    Node(int v, Node n) { value = v; next = n; }
  }
  class Main {
    static Node first;
    static int fill(Node[] nodes) {
      int i = 0;
      while (i < nodes.length) { first = new Node(i, first); nodes[i] = first; i = i + 1; }
      return nodes[3].value;
    }
    static int main() {
      int found = 0;
      try { found = fill(new Node[2]); } catch (Exception e) { found = first.value; }
      return found;
    }
  }"

/-- Evaluates what is said of `nodesSource`. -/
def nodesCheck : Option Bool := do
  let b ← (build nodesSource {}).toOption
  let (.ok (.returned (.int 1)), μ) ← b.program.run 4 8 "Main.main" .initial | none
  let (.ok (.returned (.int 1)), μ') ← b.program.run 4 8 "Main.main" μ | none
  let m ← (b.program.moments 4 8 "Main.main" μ).find? fun m => m.frames.length == 3
  return decide (μ.heap.size = 4 ∧ μ'.heap.size = 8 ∧ refs m.frames = [5, 4, 4])

/-- A second run makes as many objects again. While the first of its nodes is made, the node and the
array are held by the frames of the constructor and of its caller. -/
theorem references_lead_nodes :
    ∃ (b : Build) (μ μ' : Machine) (m : Moment), build nodesSource {} = .ok b ∧
      b.program.Reached 4 μ ∧ m ∈ b.program.moments 4 8 "Main.main" μ ∧
      refs m.frames = [5, 4, 4] ∧ m.Closed ∧
      b.program.run 4 8 "Main.main" μ = some (.ok (.returned (.int 1)), μ') ∧
      μ.heap.size = 4 ∧ μ'.heap.size = 8 ∧ Heap.Kept μ.heap μ'.heap ∧ μ'.Closed := by
  have h : nodesCheck = some true := by
    set_option maxRecDepth 20000 in
    rw [nodesCheck, show nodesSource = String.ofList _ from rfl, build_ofList]
    decide +kernel
  rw [nodesCheck] at h
  obtain ⟨b, hb, h⟩ := Option.bind_eq_some_iff.mp h
  obtain ⟨⟨o, μ⟩, hfirst, h⟩ := Option.bind_eq_some_iff.mp h
  split at h
  · next μ heq =>
      obtain ⟨rfl, rfl⟩ := Prod.mk.inj heq
      obtain ⟨⟨o', μ'⟩, hsecond, h⟩ := Option.bind_eq_some_iff.mp h
      split at h
      · next μ' heq =>
          obtain ⟨rfl, rfl⟩ := Prod.mk.inj heq
          obtain ⟨m, hm, h⟩ := Option.bind_eq_some_iff.mp h
          obtain ⟨hsize, hsize', hheld⟩ := of_decide_eq_true (Option.some.inj h)
          have hreached : b.program.Reached 4 μ := .run .initial hfirst
          obtain ⟨hclosed, _, hends⟩ := WovenProgram.references_lead hreached 8 "Main.main"
          obtain ⟨_, hkept, hleft, _⟩ := hends _ μ' hsecond
          have hmem := List.mem_of_find?_eq_some hm
          exact ⟨b, μ, μ', m, ok_of_toOption hb, hreached, hmem, hheld, hclosed m hmem, hsecond,
            hsize, hsize', hkept, hleft⟩
      · cases h
  · cases h

end Covenant
