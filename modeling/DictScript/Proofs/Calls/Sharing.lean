import DictScript.Proofs.Calls.Failures
import DictScript.Proofs.Calls.Retention
import DictScript.Proofs.Dictionaries.Literals

/-!
Which variables a block shares with the environment in which it is defined. The entries of a literal
are evaluated in a view of the new dictionary, behind which there is the environment, and a block
among them keeps that view. So it shares the variables of the environment except those that the
literal binds as well: of these it has the literal's own, which a definition only copies.
-/
namespace DictScript
open Heap
variable {rt : Runtime} {h k : Heap} {c d e w o p dict : DictId} {n : String} {v : Value}
variable {base : List (List Value)} {m m₁ : Machine}

namespace Heap

structure Backed (h : Heap) (c p : DictId) : Prop where
  parent : (h.cell c).parent = some p
  scope : (h.cell c).scope = some p

theorem Backed.parent_eq (hc : h.Backed c p) : h.parent c = some p := by
  simp [Heap.parent, hc.parent, hc.scope]

theorem Backed.seen (hc : h.Backed c p) (hn : Key.of n = .slot n) :
    h.seen c n = ((h.slots c).lookup n).or (h.seen p n) := by
  rw [seen_step hn, hc.parent_eq, Option.bind_some]

theorem Backed.find (hc : h.Backed c p) (hn : Key.of n = .slot n) :
    h.find c n = if n ∈ h.names c then some c else h.find p n := by
  rw [find_step, hc.parent_eq, Option.bind_some]
  simp only [mem_names_iff hn]

/-- Where the blocks of a literal look names up that is evaluated in `e`: in the new dictionary, and
behind it in `e`. -/
structure SeesThrough (h : Heap) (w dict e : DictId) : Prop where
  backed : h.Backed w e
  target : (h.cell w).target = some dict
  plain : (h.cell dict).target = none

theorem SeesThrough.owner (hw : h.SeesThrough w dict e) : h.owner w = h.owner dict := by
  rw [Heap.owner, Heap.owner, hw.target, hw.plain]
  rfl

theorem SeesThrough.slots (hw : h.SeesThrough w dict e) : h.slots w = h.slots dict := by
  rw [Heap.slots, hw.owner, Heap.slots]

end Heap

/-- The entries of a literal are evaluated in such a scope. -/
theorem Machine.Fills.seesThrough {stack : List Frame} {literal : DictId}
    {done todo : List (String × Value)} (hh : h.Opened literal dict w e p)
    (hm : m.Fills stack literal dict w h done todo) : m.heap.SeesThrough w dict e := by
  have hview := hm.others w (by simp)
  obtain ⟨s, -, hdict⟩ := hm.filled
  refine ⟨⟨?_, ?_⟩, ?_, ?_⟩
  · rw [hview, hh.behind.1]
  · rw [hview, hh.behind.2]
  · rw [hview, hh.view]
  · rw [hdict, hh.target]

namespace Heap

/-! One name that is rebound. -/

section
variable (ho : h.Allocated (.dict (h.owner o))) (hk : SameObjects (h.put o n v) k)
include ho hk

theorem lookup_of_put (c : DictId) : (k.slots c).lookup n =
    if h.owner c = h.owner o then some v else (h.slots c).lookup n := by
  have hcell := fun c => cell_congr (d := c) hk.dicts
  rw [slots_congr (hcell c) (hcell _), lookup_put ho]
  simp

theorem Backed.of_put (hc : h.Backed c p) : k.Backed c p := by
  have hcell := cell_congr (d := c) hk.dicts
  rw [cell_put ho] at hcell
  constructor
  · rw [hcell]
    split
    · exact hc.parent
    · exact hc.parent
  · rw [hcell]
    split
    · exact hc.scope
    · exact hc.scope

theorem seen_of_put (hn : Key.of n = .slot n) (hc : n ∈ h.names c) :
    k.seen c n = if h.owner c = h.owner o then some v else h.seen c n := by
  obtain ⟨u, hu⟩ := Option.isSome_iff_exists.mp (lookup_isSome_iff.mpr hc)
  rw [seen_step hn, lookup_of_put ho hk, seen_step hn, hu]
  split <;> simp only [Option.some_or]

end

end Heap

/-- An assignment of one name, in an environment `e` that binds it or in the body of a block of a
literal that was evaluated there. If the literal does not bind the name, then the environment and
the blocks both have the new value. If it does they have a variable each, and the other one stays
as it was. -/
theorem Machine.Ok.assigns_shared (hrt : rt.Lawful) (hm : m.Ok rt base) {x : Value}
    (hbegins : m.BeginsForm "set" x c)
    (hreturns : Returns rt (.operand .assign c .dict [] [] :: m.stack) (m.step rt) m₁)
    (hret : m₁.control = .ret (.dict d)) :
    let g := m₁.heap.hold (.dict d)
    let k := (m₁.step rt).heap
    g.slots d = [(n, v)] → g.SeesThrough w dict e → n ∈ g.names e →
    (c = e ∨ g.Backed c w ∧ n ∉ g.names c) →
      (m₁.step rt).control = .ret .nil ∧ (m₁.step rt).stack = m.stack ∧
      (n ∉ g.names dict → k.seen e n = some v ∧ k.seen w n = some v) ∧
      (n ∈ g.names dict → g.owner e ≠ g.owner dict →
        (c = e → k.seen e n = some v ∧ k.seen w n = g.seen w n) ∧
        (c ≠ e → k.seen w n = some v ∧ k.seen e n = g.seen e n)) := by
  intro g k hslots hw he hc
  obtain ⟨hg, hmade, hxs, pins, hstep⟩ := hm.assigns hrt hbegins hreturns hret
  have hn : Key.of n = .slot n := (hxs (n, v) (hslots ▸ List.mem_singleton_self _)).1
  have hwe : n ∈ g.names w ↔ n ∈ g.names dict := by rw [Heap.names, hw.slots, Heap.names]
  -- the name is found in the view if the literal binds it and the lookup begins there
  have hfind : g.find c n = some (if c ≠ e ∧ n ∈ g.names dict then w else e) := by
    have hbound : g.find e n = some e := find_of_holds ((mem_names_iff hn).mp he)
    by_cases hce : c = e
    · rw [hce, hbound]
      simp
    · obtain ⟨hback, hlacks⟩ := hc.resolve_left hce
      rw [hback.find hn, if_neg hlacks, hw.backed.find hn, hbound]
      simp only [hwe, hce, ne_eq, not_false_eq_true, true_and]
      split <;> rfl
  have hassign : assignAll c (g.slots d) g =
      (.ret .nil, g.put (if c ≠ e ∧ n ∈ g.names dict then w else e) n v) := by
    simp only [hslots, assignAll, hfind]
  rw [hassign] at hstep
  set o := if c ≠ e ∧ n ∈ g.names dict then w else e with ho
  have howner : g.Allocated (.dict (g.owner o)) := hg.owner (hg.find hmade hfind)
  have hk : SameObjects (g.put o n v) k := by
    rw [show k = _ from congrArg Machine.heap hstep]
    exact ⟨rfl, rfl, rfl⟩
  have hseen : ∀ b, n ∈ g.names b →
      k.seen b n = if g.owner b = g.owner o then some v else g.seen b n :=
    fun b hb => seen_of_put howner hk hn hb
  refine ⟨by rw [hstep]; rfl, by rw [hstep]; rfl, fun hdict => ?_, fun hdict hapart => ?_⟩
  · have hoe : o = e := by simp [ho, hdict]
    have hnew : k.seen e n = some v := by rw [hseen e he, hoe, if_pos rfl]
    refine ⟨hnew, ?_⟩
    have hold : (g.slots w).lookup n = none := by
      rw [← Option.not_isSome_iff_eq_none, lookup_isSome_iff]
      exact fun hmem => hdict (hwe.mp hmem)
    rw [(hw.backed.of_put howner hk).seen hn, hnew, lookup_of_put howner hk, hold]
    split <;> rfl
  · have hwn : n ∈ g.names w := hwe.mpr hdict
    rw [← hw.owner] at hapart
    refine ⟨fun hce => ?_, fun hce => ?_⟩
    · have hoe : o = e := by simp [ho, hce]
      rw [hseen e he, hseen w hwn, hoe, if_pos rfl, if_neg (Ne.symm hapart)]
      exact ⟨rfl, rfl⟩
    · have how : o = w := by simp [ho, hce, hdict]
      rw [hseen e he, hseen w hwn, how, if_pos rfl, if_neg hapart]
      exact ⟨rfl, rfl⟩

def Value.truth? : Value → Option Bool
  | bool b => some b
  | _ => none

def Machine.truth? (m : Machine) : Option Bool :=
  match m.result? with
  | some (.ok v) => v.truth?
  | _ => none

namespace Script

/-- `[do [def {x = true, f = [| x]}] [set {x = false}] [f]]`: the block is defined together with the
name that it reads. -/
def together : List Token :=
  list [[.sym "do"],
    list [[.sym "def"], Script.dict [("x", [.bool true]), ("f", list [[.sym "|"], [.sym "x"]])]],
    list [[.sym "set"], Script.dict [("x", [.bool false])]], list [[.sym "f"]]]

/-- `[do [def {x = true}] [def {f = [| x]}] [set {x = false}] [f]]`: the block is defined after
it. -/
def oneByOne : List Token :=
  list [[.sym "do"], list [[.sym "def"], Script.dict [("x", [.bool true])]],
    list [[.sym "def"], Script.dict [("f", list [[.sym "|"], [.sym "x"]])]],
    list [[.sym "set"], Script.dict [("x", [.bool false])]], list [[.sym "f"]]]

def after (script : List Token) (n : Nat) : Machine :=
  (start (Interpreter.standard 100) script).run (Interpreter.standard 100).runtime n

end Script

/-- A block that is defined together with a name reads the value that the name was defined with,
also after an assignment in the environment. Defined by itself it reads the new one. -/
theorem Machine.definition_copies :
    (Script.after Script.together 30).truth? = some true ∧
      ((Script.after Script.together 30).heap.get ⟨0⟩ "x").truth? = some false ∧
      (Script.after Script.oneByOne 30).truth? = some false :=
  ⟨by decide +kernel, by decide +kernel, by decide +kernel⟩

end DictScript
