import DictScript.Proofs.Parents.Cycles
import DictScript.Proofs.Parents.Lookup

/-!
How long a closure sees the scope it was made in. Call frames and views keep their scope alive and
never let go of it. What a dictionary inherits from without being one of them is found only as long
as something else keeps it.
-/
namespace DictScript
open Heap
variable {rt : Runtime} {h k : Heap} {d e p x : DictId} {name : String} {n : Nat}
variable {s s' : Scene} {base : List (List Value)} {m : Machine}

namespace Heap

theorem Orderly.allocated_of_visits (ho : h.Orderly) (hd : h.Allocated (.dict d))
    (hx : h.Visits name d x) : h.Allocated (.dict x) := by
  cases Relation.ReflTransGen.cases_tail hx with
  | inl heq => exact heq ▸ hd
  | inr hlast =>
    obtain ⟨c, -, hpass⟩ := hlast
    exact ho.bounded c x hpass.2

theorem Orderly.findFrom_of_kept {m : Nat} (ho : k.Orderly) (hm : k.height d < m)
    (hfind : h.findFrom name n d = some e)
    (hparents : ∀ x p, h.Visits name d x → h.Passes name x p → k.Inherits x p)
    (hholds : ∀ x, h.Visits name d x → k.holds x name = h.holds x name) :
    k.findFrom name m d = some e := by
  induction n generalizing d m with
  | zero => cases hfind
  | succ n ih =>
    obtain ⟨m, rfl⟩ : ∃ i, m = i + 1 := ⟨m - 1, by omega⟩
    rw [findFrom] at hfind ⊢
    rw [hholds d .refl]
    cases hd : h.holds d name with
    | true =>
      rw [hd] at hfind
      exact hfind
    | false =>
      simp only [hd, Bool.false_eq_true, if_false] at hfind ⊢
      cases hp : h.parent d with
      | none => simp only [hp, reduceCtorEq] at hfind
      | some p =>
        have hpass : h.Passes name d p := ⟨hd, hp⟩
        have hkept : k.parent d = some p := hparents d p .refl hpass
        have hlt := ho.height_lt hkept
        simp only [hp] at hfind
        simp only [hkept]
        exact ih (by omega) hfind (fun x q hx => hparents x q (.head hpass hx))
          fun x hx => hholds x (.head hpass hx)

/-- A lookup that meets the same parents and the same bindings finds the same. -/
theorem Orderly.find_of_kept (ho : k.Orderly) (hfind : h.find d name = some e)
    (hparents : ∀ x p, h.Visits name d x → h.Passes name x p → k.Inherits x p)
    (hholds : ∀ x, h.Visits name d x → k.holds x name = h.holds x name) :
    k.find d name = some e :=
  ho.findFrom_of_kept (Nat.lt_succ_of_le (k.height_le d)) hfind hparents hholds

/-! What a frame or a view keeps alive is never changed. -/

/-- What a change to a cell leaves alone. -/
theorem proj_modifyCell {α : Type} {f : DictCell → DictCell} (π : DictCell → α)
    (hf : ∀ c, π (f c) = π c) (d e : DictId) : π ((h.modifyCell d f).cell e) = π (h.cell e) := by
  simp only [cell, modifyCell, Array.getD_eq_getD_getElem?, Array.getElem?_modify]
  split
  · cases h.dicts[e.index]? with
    | none => rfl
    | some c => exact hf c
  · rfl

theorem scope_modifyCell {f : DictCell → DictCell} (hf : ∀ c, (f c).scope = c.scope) :
    ((h.modifyCell d f).cell e).scope = (h.cell e).scope :=
  proj_modifyCell DictCell.scope hf d e

theorem target_modifyCell {f : DictCell → DictCell} (hf : ∀ c, (f c).target = c.target) :
    ((h.modifyCell d f).cell e).target = (h.cell e).target :=
  proj_modifyCell DictCell.target hf d e

theorem Op.scope_eq (hop : Op s s') (hd : s.1.Allocated (.dict d)) :
    s'.1.Allocated (.dict d) ∧ (s'.1.cell d).scope = (s.1.cell d).scope := by
  cases hop with
  | newDict c _ _ _ _ _ =>
    refine ⟨?_, by rw [cell_newDict_of_allocated c hd]⟩
    simp only [Allocated, Heap.newDict, Array.size_push] at hd ⊢
    omega
  | put _ _ _ _ _ _ | erase _ _ _ | setParent _ _ _ _ _ _ | attach _ _ _ _ _ _ _ | unparent _ _
  | setCaller _ _ _ _ | setName _ _ _ | setTag _ _ _ =>
    refine ⟨?_, scope_modifyCell fun _ => rfl⟩
    simpa [Allocated, Heap.put, eraseSlot, link, Heap.setCaller, Heap.setName, Heap.setTag,
      modifyCell] using hd
  | _ => exact ⟨hd, rfl⟩

theorem Ops.scope_eq (hops : Ops s s') (hd : s.1.Allocated (.dict d)) :
    s'.1.Allocated (.dict d) ∧ (s'.1.cell d).scope = (s.1.cell d).scope := by
  induction hops with
  | refl => exact ⟨hd, rfl⟩
  | tail _ hop ih =>
    obtain ⟨hmade, hscope⟩ := hop.scope_eq ih.1
    exact ⟨hmade, hscope.trans ih.2⟩

end Heap

namespace Machine

theorem Ok.scope_step (hrt : rt.Lawful) (hm : m.Ok rt base) (hd : m.heap.Allocated (.dict d)) :
    (m.step rt).heap.Allocated (.dict d) ∧
      ((m.step rt).heap.cell d).scope = (m.heap.cell d).scope := by
  obtain hended | ⟨stack, depth, log, h, K, x, k, hstep, hdicts, -, -, -, -, hsafe, hk, -⟩ :=
    hm.exists_rule hrt
  · rw [hended]
    exact ⟨hd, rfl⟩
  · obtain ⟨L, hlead, -⟩ := hsafe
    have hmade : h.Allocated (.dict d) := by rwa [Allocated, hdicts]
    have hkept := Ops.scope_eq hlead.ops hmade
    have hsame : (m.step rt).heap.dicts = x.2.dicts := by
      rw [hstep]
      obtain rfl | rfl := hk <;> rfl
    rw [Allocated, hsame, cell_congr hsame, ← cell_congr hdicts]
    exact hkept

theorem Ok.scope_run (hrt : rt.Lawful) (fuel : Nat) (hm : m.Ok rt base)
    (hd : m.heap.Allocated (.dict d)) :
    (m.run rt fuel).heap.Allocated (.dict d) ∧
      ((m.run rt fuel).heap.cell d).scope = (m.heap.cell d).scope := by
  induction fuel generalizing m with
  | zero => exact ⟨hd, rfl⟩
  | succ fuel ih =>
    rw [Machine.run]
    split
    · exact ⟨hd, rfl⟩
    · obtain ⟨hmade, hscope⟩ := hm.scope_step hrt hd
      have hrest := ih (hm.step hrt) hmade
      exact ⟨hrest.1, hrest.2.trans hscope⟩

/-- However long the machine runs, a name is found where it was found before, if the dictionaries on
the way are given no other parents, gain and lose no binding of it, and each is a frame or a view or
has a parent that lives. -/
theorem Ok.find_run (hrt : rt.Lawful) (fuel : Nat) (hm : m.Ok rt base)
    (hd : m.heap.Allocated (.dict d)) (hfind : m.heap.find d name = some e)
    (hparents : ∀ x p, m.heap.Visits name d x → m.heap.Passes name x p →
      ((m.run rt fuel).heap.cell x).parent = some p)
    (hkept : ∀ x p, m.heap.Visits name d x → m.heap.Passes name x p →
      (m.heap.cell x).scope = some p ∨ (m.run rt fuel).heap.alive p = true)
    (hholds : ∀ x, m.heap.Visits name d x →
      (m.run rt fuel).heap.holds x name = m.heap.holds x name) :
    (m.run rt fuel).heap.find d name = some e := by
  refine (hm.run hrt fuel).good.orderly.find_of_kept hfind (fun x p hx hpass => ?_) hholds
  have hmade := hm.good.orderly.allocated_of_visits hd hx
  refine Option.filter_eq_some_iff.mpr ⟨hparents x p hx hpass, ?_⟩
  rw [Bool.or_eq_true, decide_eq_true_eq, (hm.scope_run hrt fuel hmade).2]
  exact hkept x p hx hpass

/-- The environment a lookup would start from: that of the evaluation, or of the block that is the
result. -/
def scope? (m : Machine) : Option DictId :=
  match m.control with
  | .eval _ env => some env
  | .ret (.block b) => some b.env
  | _ => none

def failure? (m : Machine) : Option Cause :=
  match m.result? with
  | some (.error e) => some e.cause
  | _ => none

end Machine

namespace Script

def list (items : List (List Token)) : List Token :=
  .mark .listOpen :: (items.flatten ++ [.mark .listClose])

def dict (entries : List (String × List Token)) : List Token :=
  .mark .dictOpen :: (entries.flatMap (fun e => .str e.1 :: e.2) ++ [.mark .dictClose])

def start (i : Interpreter) (script : List Token) : Machine :=
  match i.thaw (.arr (script.map Token.toJson)) none with
  | (.ok expr, i) => (i.holding [expr]).begin (.evaluate expr none)
  | (.error _, i) => i.begin (.evaluate .nil none)

/-- `[do [def {g = [n | [{k = 1} [list [| n]]]]}] [[[g 5] 0]]]`: the closure is made in a dictionary
whose parent is the frame of `g`. -/
def lending : List Token :=
  let closure := list [[.sym "|"], [.sym "n"]]
  let body := list [dict [("k", [.num (.nat 1)])], list [[.sym "list"], closure]]
  let g := list [[.sym "n"], [.sym "|"], body]
  list [[.sym "do"], list [[.sym "def"], dict [("g", g)]],
    list [list [list [[.sym "g"], [.num (.nat 5)]], [.num (.nat 0)]]]]

end Script

/-- A dictionary that is neither a frame nor a view loses its scope: `n` is found when the closure
is made, and no longer when the closure is called. -/
theorem Machine.find_lost :
    let rt := (Interpreter.standard 100).runtime
    let m := Script.start (Interpreter.standard 100) Script.lending
    ((m.run rt 22).scope? = some ⟨26⟩ ∧ (m.run rt 22).heap.find ⟨26⟩ "n" = some ⟨25⟩) ∧
      ((m.run rt 33).scope? = some ⟨26⟩ ∧ (m.run rt 33).heap.find ⟨26⟩ "n" = none) ∧
      (m.run rt 40).failure? = some (.unbound "n" (some "k")) := by
  decide +kernel

end DictScript
