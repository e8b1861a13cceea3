import DictScript.Proofs.Calls.Retention
import DictScript.Proofs.Frozen.RoundTrip

/-!
What is left of the scope of a closure that has been frozen and thawed. The stream has the slots of
its environment, but not what the environment inherits.
-/
namespace DictScript
open Heap
variable {h k : Heap} {scope : Option DictId} {registry : Registry} {b : Block} {d e : DictId}
variable {name : String} {m n : Nat}

namespace Heap

theorem findFrom_mono (hnm : n ≤ m) (he : h.findFrom name n d = some e) :
    h.findFrom name m d = some e := by
  induction n generalizing m d with
  | zero => cases he
  | succ n ih =>
    obtain ⟨m, rfl⟩ : ∃ i, m = i + 1 := ⟨m - 1, by omega⟩
    rw [findFrom] at he ⊢
    cases hd : h.holds d name with
    | true =>
      rw [hd] at he
      exact he
    | false =>
      simp only [hd, Bool.false_eq_true, if_false] at he ⊢
      cases hp : h.parent d with
      | none => simp only [hp, reduceCtorEq] at he
      | some p =>
        simp only [hp] at he ⊢
        exact ih (by omega) he

/-- A lookup ends at once, or the same is found from the parent. -/
theorem find_cases (he : h.find d name = some e) :
    e = d ∨ ∃ p, h.Inherits d p ∧ h.find p name = some e := by
  rw [find, findFrom] at he
  split at he
  · exact .inl (Option.some.inj he).symm
  · split at he
    · cases he
    · rename_i p hp
      exact .inr ⟨p, hp, findFrom_mono (Nat.le_succ _) he⟩

/-- Frozen and thawed, a closure keeps the slots of its environment. Behind these it sees the scope
it is thawed in, and nothing else of what it saw before. -/
theorem thaw_freeze_closure (hh : h.WellFormed) (hb : h.Bounded (.block b))
    (hplain : ∀ w, h.Within (.block b) w → h.Plain scope w)
    (hnum : ∀ x n, h.Within (.block b) (.num x) → freezeNumber x = .ok n →
      (x == n.toFloat) = true)
    (hreg : registry.lookup rootTag = some Registry.defrostRoot)
    (henv : (h.cell (h.owner b.env)).tag = none) :
    ∃ tokens c k ρ, h.freeze (.block b) = .ok tokens ∧
      h.thaw registry (.arr (tokens.map Token.toJson)) scope = (.ok (.block c), k) ∧
      Isomorphism h k (.block b) (.block c) ρ ∧
      ∀ name e, k.find c.env name = some e →
        e = c.env ∨ ∃ s, scope = some s ∧ k.find s name = some e := by
  have hstore : h.Storable (fun x n => (x == n.toFloat) = true) scope (.block b) :=
    ⟨hb, hplain, hnum⟩
  obtain ⟨tokens, w, k, ρ, hfreeze, hthaw, hiso, hext, hmade⟩ := hstore.exists_copy hh hreg
  obtain ⟨c, rfl, hpair⟩ : ∃ c, w = .block c ∧
      ρ (.dict (h.owner b.env)) (.dict (k.owner c.env)) := by
    cases hiso.values with
    | object hv _ _ => cases hv
    | block _ _ henvs _ =>
      obtain ⟨s, hs, hrs⟩ := henvs.object_inv (r := .dict (h.owner b.env)) rfl
      cases hs
      exact ⟨_, rfl, hrs⟩
  have hnew : h.dicts.size ≤ c.env.index := by
    by_contra hold
    have hmadeEnv : h.Allocated (.dict c.env) := Nat.lt_of_not_le hold
    have howner : k.owner c.env = h.owner c.env := by
      rw [owner, owner, hext.grown.cell _ hmadeEnv (by simp)]
    rw [howner] at hpair
    have htag := (hiso.tags _ _ hpair).1
    rw [hext.grown.cell _ (allocated_owner hh hmadeEnv) (by simp), henv] at htag
    obtain hfresh | ⟨d, hd, hroot⟩ := (hmade _ _ hpair).2
    · exact hfresh.not_allocated (allocated_owner hh hmadeEnv)
    · cases hd
      rw [hroot.2.1] at htag
      cases htag
  refine ⟨tokens, c, k, ρ, hfreeze, hthaw, hiso, fun name e he => ?_⟩
  refine (find_cases he).imp_right ?_
  rintro ⟨p, hp, hfind⟩
  exact ⟨p, hext.parents _ _ hnew (Option.filter_eq_some_iff.mp hp).1, hfind⟩

end Heap

def Machine.answers (m : Machine) (v : Value) : Bool :=
  match m.result? with
  | some (.ok w) => m.heap.equal w v
  | _ => false

namespace Interpreter

def closure? (i : Interpreter) (script : List Token) (fuel : Nat) : Option (Block × Interpreter) :=
  let m := (Script.start i script).run i.runtime fuel
  match m.result? with
  | some (.ok (.block b)) => some (b, { i with heap := m.heap.leave }.holding [.block b])
  | _ => none

def reload? (i : Interpreter) (b : Block) : Option (Block × Interpreter) :=
  match i.heap.freeze (.block b) with
  | .ok tokens =>
    match i.thaw (.arr (tokens.map Token.toJson)) (some i.root) with
    | (.ok (.block c), i) => some (c, i)
    | _ => none
  | .error _ => none

def call (i : Interpreter) (b : Block) (args : List Value) (fuel : Nat) : Machine :=
  (i.begin (.call i.root b args)).run i.runtime fuel

end Interpreter

/-- `[[a | [[b | [c | [+ a [+ b c]]]] 2]] 1]`: a closure in two frames, one around the other. -/
def Script.nesting : List Token :=
  let sum := list [[.sym "+"], [.sym "a"], list [[.sym "+"], [.sym "b"], [.sym "c"]]]
  let closure := list [[.sym "c"], [.sym "|"], sum]
  let inner := list [list [[.sym "b"], [.sym "|"], closure], [.num (.nat 2)]]
  list [list [[.sym "a"], [.sym "|"], inner], [.num (.nat 1)]]

/-- The closure answers 6 to 3. Frozen and thawed it has lost the outer frame. -/
theorem Interpreter.call_reload_nesting :
    ((standard 100).closure? Script.nesting 40).map
        (fun (b, i) => (i.call b [.num 3] 40).answers (.num 6)) = some true ∧
      (((standard 100).closure? Script.nesting 40).bind fun (b, i) => i.reload? b).map
        (fun (c, i) => (i.call c [.num 3] 40).failure?) =
          some (some (.unbound "a" (some "c"))) := by
  decide +kernel

end DictScript
