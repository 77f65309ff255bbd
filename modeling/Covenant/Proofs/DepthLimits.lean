import Covenant.Proofs.ActiveMembers
import Covenant.Proofs.ComparedMembers

/-!
# The limit on calls

Never are more members active than the limit says, and a run that ends in another
way than at the limit does not notice it: with a larger limit it ends in the same
way. For this a run is compared with one on the same machine that has more room.
-/

namespace Covenant

/-- Runs on the same machine, of which the one on the left may be cut off. -/
def Comparison.roomier : Comparison := .same (fun _ => True) True

namespace Run

/-- Runs on the same machine that are not cut off end alike. -/
theorem toOutcome_roomier {x y : Option (Except Unwind Value × Machine)}
    (h : Comparison.roomier.Related Comparison.roomier.machine (Value.rename id) x y)
    {o o' : Except RunError Outcome} {μ μ' : Machine}
    (hx : x.bind (fun e => toOutcome e.1 e.2) = some (o, μ))
    (hy : y.bind (fun e => toOutcome e.1 e.2) = some (o', μ'))
    (hcut : ∀ m l, o ≠ .error (.recursionLimit m l)) : o' = o := by
  cases h with
  | ok ht =>
      cases hx
      cases hy
      rw [Value.rename_id]
  | throw ht =>
      obtain ⟨rfl, _⟩ := ht
      cases hx
      cases hy
      rfl
  | @stop u _ _ hu ht =>
      rw [show u.rename Comparison.roomier.ref = u from u.rename_id] at hy
      cases u with
      | throw => cases hu
      | violation | fatal =>
          cases hx
          cases hy
          rfl
  | none => cases hx
  | cut =>
      cases hx
      exact absurd rfl (hcut _ _)
  | left => cases hx
  | right => cases hy

/-- The state that a run leaves is the one that its computation left. -/
theorem toOutcome_machine {r : Except Unwind Value} {o : Except RunError Outcome} {μ μ' : Machine}
    (h : toOutcome r μ = some (o, μ')) : μ' = μ := by
  rcases r with (_ | _ | _) | _ <;> cases h <;> rfl

theorem toOutcome_recursionLimit {r : Except Unwind Value} {μ μ' : Machine} {m : String} {l : Nat}
    (h : toOutcome r μ = some (.error (.recursionLimit m l), μ')) :
    r = .error (.fatal (.recursionLimit m l)) := by
  rcases r with (_ | _ | _) | _ <;> cases h <;> rfl

end Run

namespace WovenProgram

variable (p : WovenProgram) (entry : String)

/-- A larger limit on calls does not change how a run ends that does not meet the smaller one. -/
theorem run_roomier {limit limit' bound bound' : Nat} (hle : limit ≤ limit')
    {μ μ₁ μ₂ : Machine} {o o' : Except RunError Outcome}
    (h : p.run limit bound entry μ = some (o, μ₁))
    (h' : p.run limit' bound' entry μ = some (o', μ₂))
    (hcut : ∀ m l, o ≠ .error (.recursionLimit m l)) : o' = o := by
  -- Both runs have the larger one of the bounds, with which they end as before.
  replace h := p.run_mono limit (Nat.le_max_left bound bound') h
  replace h' := p.run_mono limit' (Nat.le_max_right bound bound') h'
  cases he : Run.findEntry p.env entry with
  | error e =>
      rw [run, he] at h h'
      cases h
      cases h'
      rfl
  | ok main =>
      rw [p.run_eq limit _ he] at h
      rw [p.run_eq limit' _ he] at h'
      refine Run.toOutcome_roomier (Run.runFrom_compares ?_ (fun _ _ => trivial) main
        ⟨rfl, fun _ hk => absurd trivial hk⟩) h h' hcut
      exact Run.calls_compares (fun _ _ _ _ _ => trivial) (.inr ⟨hle, trivial⟩) _

/-- The members that are active in a run never are more than the limit says, and a run is cut off
where they are as many. -/
theorem activity_bounded (limit bound : Nat) {μ : Machine} (hμ : μ.depth = 0) :
    (∀ chain ∈ (p.activity limit bound entry).chains μ, chain.length ≤ limit) ∧
    (∀ o μ', p.run limit bound entry μ = some (o, μ') → μ'.depth = 0) ∧
    ∀ m l μ', p.run limit bound entry μ = some (.error (.recursionLimit m l), μ') →
      ∃ chain ∈ [] :: (p.activity limit bound entry).chains μ, chain.length = limit := by
  have hbounded {chain} (hchain : chain ∈ (p.activity limit bound entry).chains μ) :
      chain.length ≤ limit := by
    have hle : μ.depth + chain.length ≤ limit := (p.activity limit bound entry).bounded hchain
    omega
  rw [p.run_eq_entered]
  refine ⟨fun _ => hbounded, fun o μ' h => ?_, fun m l μ' h => ?_⟩
  · obtain ⟨⟨r, μ₁⟩, hends, hout⟩ := Option.bind_eq_some_iff.mp h
    rw [Run.toOutcome_machine hout, ← hμ]
    exact (p.activity limit bound entry).restored hends
  · obtain ⟨⟨r, μ₁⟩, hends, hout⟩ := Option.bind_eq_some_iff.mp h
    obtain rfl := Run.toOutcome_recursionLimit hout
    obtain ⟨chain, hmem, hle⟩ := (p.activity limit bound entry).reached hends trivial
    replace hle : limit ≤ μ.depth + chain.length := hle
    refine ⟨chain, hmem, ?_⟩
    rcases List.mem_cons.mp hmem with rfl | hmem
    · rw [List.length_nil] at hle ⊢
      omega
    · have := hbounded hmem
      omega

end WovenProgram

/-- The limit on calls only cuts runs off. At no moment are more members active than it says; the
count of active members is restored on every way out; and a run that ends without having met the
limit ends as with any larger one. -/
theorem limit_only_cuts_off (p : WovenProgram) (entry : String) {limit limit' : Nat}
    (hle : limit ≤ limit') {μ : Machine} (hμ : μ.depth = 0) :
    (∀ bound, ∀ chain ∈ (p.activity limit bound entry).chains μ, chain.length ≤ limit) ∧
    (∀ bound o μ', p.run limit bound entry μ = some (o, μ') →
      μ'.depth = 0 ∧
      ((∃ m l, o = .error (.recursionLimit m l)) →
        ∃ chain ∈ [] :: (p.activity limit bound entry).chains μ, chain.length = limit) ∧
      ((∀ m l, o ≠ .error (.recursionLimit m l)) →
        ∀ bound' o' μ'', p.run limit' bound' entry μ = some (o', μ'') → o' = o)) := by
  refine ⟨fun bound => (p.activity_bounded entry limit bound hμ).1, fun bound o μ' h => ?_⟩
  obtain ⟨_, hdepth, hreached⟩ := p.activity_bounded entry limit bound hμ
  refine ⟨hdepth o μ' h, ?_, fun hcut bound' o' μ'' h' => p.run_roomier entry hle h h' hcut⟩
  rintro ⟨m, l, rfl⟩
  exact hreached m l μ' h

/-- Four members are active when the recursion ends. -/
def downSource : String :=
  "class Main {
    static int down(int n) { if (n <= 0) return 0; return down(n - 1); }
    static int main() { return down(2); }
  }"

/-- Evaluates what is said of `downSource`. -/
def downCheck : Option Bool := do
  let b ← (build downSource {}).toOption
  let (.ok (.returned (.int 0)), _) ← b.program.run 4 8 "Main.main" .initial | none
  let (_, _) ← b.program.run 6 9 "Main.main" .initial
  let (.error (.recursionLimit _ _), _) ← b.program.run 3 8 "Main.main" .initial | none
  return ((b.program.activity 4 8 "Main.main").chains .initial).map (·.length) == [1, 2, 3, 4]

/-- The run just fits in the limit, and so ends in the same way with a larger one; it is cut off if
there is less room, where as many members are active as fit. -/
theorem limit_only_cuts_off_down :
    ∃ b μ₁ μ₂, build downSource {} = .ok b ∧
      b.program.run 4 8 "Main.main" .initial = some (.ok (.returned (.int 0)), μ₁) ∧
      b.program.run 6 9 "Main.main" .initial = some (.ok (.returned (.int 0)), μ₂) ∧
      (∃ chain ∈ (b.program.activity 4 8 "Main.main").chains .initial, chain.length = 4) ∧
      ∃ chain ∈ [] :: (b.program.activity 3 8 "Main.main").chains .initial,
        chain.length = 3 := by
  have h : downCheck = some true := by
    set_option maxRecDepth 20000 in
    rw [downCheck, show downSource = String.ofList _ from rfl, build_ofList]
    decide +kernel
  rw [downCheck] at h
  obtain ⟨b, hb, h⟩ := Option.bind_eq_some_iff.mp h
  obtain ⟨⟨o₁, μ₁⟩, h₁, h⟩ := Option.bind_eq_some_iff.mp h
  split at h
  · next μ heq =>
      obtain ⟨rfl, rfl⟩ := Prod.mk.inj heq
      obtain ⟨⟨o₂, μ₂⟩, h₂, h⟩ := Option.bind_eq_some_iff.mp h
      obtain ⟨⟨o₃, μ₃⟩, h₃, h⟩ := Option.bind_eq_some_iff.mp h
      split at h
      · next m l μ' heq =>
          obtain ⟨rfl, rfl⟩ := Prod.mk.inj heq
          have hchains : ((b.program.activity 4 8 "Main.main").chains .initial).map (·.length) =
              [1, 2, 3, 4] := by simpa using h
          obtain ⟨chain, hmem, hlength⟩ := List.mem_map.mp (hchains ▸ (by simp) :
            4 ∈ ((b.program.activity 4 8 "Main.main").chains .initial).map (·.length))
          have hfits := limit_only_cuts_off b.program "Main.main" (show 4 ≤ 6 by omega)
            (μ := .initial) rfl
          have hcut := limit_only_cuts_off b.program "Main.main" (Nat.le_refl 3)
            (μ := .initial) rfl
          obtain rfl := (hfits.2 8 _ μ₁ h₁).2.2 (fun _ _ h => by cases h) 9 o₂ μ₂ h₂
          exact ⟨b, μ₁, μ₂, ok_of_toOption hb, h₁, h₂, ⟨chain, hmem, hlength⟩,
            (hcut.2 8 _ μ₃ h₃).2.1 ⟨m, l, rfl⟩⟩
      · cases h
  · cases h

end Covenant
