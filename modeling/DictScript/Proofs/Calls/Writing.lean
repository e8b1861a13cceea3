import DictScript.Proofs.Calls.Evaluation
import DictScript.Proofs.Calls.Parameters
import DictScript.Proofs.Calls.Retention
import DictScript.Proofs.Ownership.Enlarged

/-!
Names that are written in a scope which shows the slots of another dictionary: a definition binds
them there, and an assignment where they are bound already.
-/
namespace DictScript
open Heap
variable {rt : Runtime} {h k : Heap} {S T K : Set Ref} {d e c scope : DictId} {x : Value}
variable {m m₁ : Machine} {name : String} {depth : Nat} {op : Operation}

/-! What is written through the scope. -/

namespace Heap

theorem owner_put (h : Heap) (d c : DictId) (n : String) (v : Value) :
    (h.put d n v).owner c = h.owner c := by
  have htarget : ((h.put d n v).cell c).target = (h.cell c).target := by
    rw [put]
    exact target_modifyCell fun _ => rfl
  rw [owner, owner, htarget]

theorem put_congr (howner : h.owner scope = h.owner d) (n : String) (v : Value) :
    h.put scope n v = h.put d n v := by
  rw [put, put, howner]

theorem mem_names_iff {n : String} (hname : Key.of name = .slot n) :
    n ∈ h.names d ↔ h.holds d name = true := by
  simp only [names, holds, hname, List.mem_map, Prod.exists, exists_and_right, exists_eq_right,
    Option.isSome_iff_exists, lookup_slots_iff]

theorem cell_put (hd : h.Allocated (.dict (h.owner d))) (n : String) (v : Value) (c : DictId) :
    (h.put d n v).cell c =
      if c = h.owner d then { h.cell c with slots := (h.cell c).slots.put n v } else h.cell c := by
  rw [put, cell_modifyCell hd]
  split
  · rename_i heq
    rw [heq]
  · rfl

/-- Only the slots of the owner are written. -/
theorem cell_putAll (hd : h.Allocated (.dict (h.owner d))) (xs : List (String × Value))
    (c : DictId) : (h.putAll d xs).cell c =
      if c = h.owner d then { h.cell c with slots := (h.cell c).slots.putAll xs } else h.cell c := by
  induction xs generalizing h with
  | nil =>
    split <;> rfl
  | cons x xs ih =>
    have howner := owner_put h d d x.1 x.2
    have hmade : (h.put d x.1 x.2).Allocated (.dict ((h.put d x.1 x.2).owner d)) := by
      rw [howner]
      exact (allocated_modifyCell _ _).mpr hd
    rw [putAll, List.foldl_cons]
    refine (ih hmade).trans ?_
    rw [howner, cell_put hd]
    split <;> rfl

/-- The bindings are carried out one after another. A name that `d` holds itself is rebound there,
and another one at its nearest holder on the chain behind the scope. -/
inductive Rebinds (d scope : DictId) : Heap → List (String × Value) → Heap → Prop where
  | done {h : Heap} : Rebinds d scope h [] h
  | own {n : String} {v : Value} {xs : List (String × Value)} {h k : Heap} : n ∈ h.names d →
      Rebinds d scope (h.put d n v) xs k → Rebinds d scope h ((n, v) :: xs) k
  | behind {n : String} {v : Value} {xs : List (String × Value)} {h k : Heap} {q o : DictId} :
      n ∉ h.names d → h.Inherits scope q → h.find q n = some o →
      Rebinds d scope (h.put o n v) xs k → Rebinds d scope h ((n, v) :: xs) k

def Misses (h : Heap) (d scope : DictId) (n : String) : Prop :=
  n ∉ h.names d ∧ ∀ q, h.Inherits scope q → h.find q n = none

theorem assignAll_eq {xs : List (String × Value)} (howner : h.owner scope = h.owner d)
    (hxs : ∀ x ∈ xs, Key.of x.1 = .slot x.1) :
    ∃ done k, Rebinds d scope h done k ∧
      (done = xs ∧ assignAll scope xs h = (.ret .nil, k) ∨
      ∃ n v rest error suggestion, xs = done ++ (n, v) :: rest ∧ k.Misses d scope n ∧
        assignAll scope xs h = (.raise error, k) ∧ error.cause = .unbound n suggestion) := by
  induction xs generalizing h with
  | nil => exact ⟨[], h, .done, .inl ⟨rfl, rfl⟩⟩
  | cons x xs ih =>
    obtain ⟨n, v⟩ := x
    obtain ⟨hn, hxs⟩ := List.forall_mem_cons.mp hxs
    have hnames : h.names scope = h.names d := by rw [names, names, slots, slots, howner]
    have hnext : ∀ o, h.find scope n = some o →
        (∀ xs k, Rebinds d scope (h.put o n v) xs k → Rebinds d scope h ((n, v) :: xs) k) →
        ∃ done k, Rebinds d scope h done k ∧
          (done = (n, v) :: xs ∧ assignAll scope ((n, v) :: xs) h = (.ret .nil, k) ∨
          ∃ n' v' rest error suggestion, (n, v) :: xs = done ++ (n', v') :: rest ∧
            k.Misses d scope n' ∧ assignAll scope ((n, v) :: xs) h = (.raise error, k) ∧
            error.cause = .unbound n' suggestion) := by
      intro o ho hfirst
      have howner' : (h.put o n v).owner scope = (h.put o n v).owner d := by
        rw [owner_put, owner_put, howner]
      obtain ⟨done, k, hdone, hresult⟩ := ih howner' hxs
      have hstep : assignAll scope ((n, v) :: xs) h = assignAll scope xs (h.put o n v) := by
        rw [assignAll, ho]
      refine ⟨(n, v) :: done, k, hfirst done k hdone, ?_⟩
      rw [hstep]
      obtain ⟨rfl, hret⟩ | ⟨n', v', rest, error, suggestion, rfl, hmisses, hraise, hcause⟩ := hresult
      · exact .inl ⟨rfl, hret⟩
      · exact .inr ⟨n', v', rest, error, suggestion, rfl, hmisses, hraise, hcause⟩
    cases hholds : h.holds scope n with
    | true =>
      have hmem : n ∈ h.names d := hnames ▸ (mem_names_iff hn).mpr hholds
      refine hnext scope (find_of_holds hholds) fun xs k hrest => ?_
      rw [put_congr howner] at hrest
      exact .own hmem hrest
    | false =>
      have hmem : n ∉ h.names d := by
        rw [← hnames, mem_names_iff hn, hholds]
        exact Bool.false_ne_true
      have hfind := find_of_not_holds hholds
      cases ho : h.find scope n with
      | some o =>
        rw [ho] at hfind
        obtain ⟨q, hq, hqo⟩ := Option.bind_eq_some_iff.mp hfind.symm
        exact hnext o ho fun xs k hrest => .behind hmem hq hqo hrest
      | none =>
        refine ⟨[], h, .done, .inr ⟨n, v, xs, (RuntimeError.of (h.unboundFrom scope n)).raisedIn h scope,
          _, rfl, ⟨hmem, fun q hq => ?_⟩, ?_, cause_raisedIn _ _ _⟩⟩
        · have hq : h.parent scope = some q := hq
          rw [ho, hq, Option.bind_some] at hfind
          exact hfind.symm
        · rw [assignAll, ho]
          rfl

end Heap

/-! Forms with one operand. -/

namespace Machine

structure BeginsForm (name : String) (a : Value) (env : DictId) (m : Machine) : Prop where
  list : ∃ l, m.control = .eval (.list l) env ∧ m.heap.items l = [.sym name, a]
  operand : a.sym? ≠ some blockBar

theorem blockLiteral_unary (hname : name ≠ blockBar) (hx : x.sym? ≠ some blockBar) :
    blockLiteral? [.sym name, x] = none := by
  have hfirst : (Value.sym name).sym? ≠ some blockBar := fun h => hname (Option.some.inj h)
  simp [blockLiteral?, List.dropWhile, hfirst, hx]

theorem BeginsForm.awaits {form : Form} {op : Operation} (hm : m.BeginsForm name x e) (rt : Runtime)
    (hname : name ≠ blockBar) (hform : Form.ofName? name = some form)
    (hop : ∀ h, evalForm form [x] e h = (.eval x e [.operand op e .dict [] []], h)) :
    (m.step rt).Awaits e m.stack x (.operand op e .dict [] []) := by
  obtain ⟨⟨l, hcontrol, hitems⟩, hx⟩ := hm
  obtain ⟨control, stack, depth, h, log⟩ := m
  obtain rfl : control = .eval (.list l) e := hcontrol
  have hlist : evalList l e h = (.eval x e [.operand op e .dict [] []], h) := by
    have hitems : h.items l = [.sym name, x] := hitems
    rw [evalList, hitems]
    simp only [blockLiteral_unary hname hx, Value.sym?, Option.bind_some, hform, hop]
  have hstep : step rt ⟨.eval (.list l) e, stack, depth, h, log⟩ =
      proceed stack depth log (.eval x e [.operand op e .dict [] []]) h := by
    simp only [step, evalExpr, hlist]
  rw [hstep]
  exact ⟨rfl, rfl⟩

/-- The operand has come to a dictionary, in a region that has grown, and the form goes on with it. -/
theorem Inside.operand_returns (hrt : rt.Tame K) (hm : m.Inside K [] depth S)
    (hbegins : m.BeginsForm name x scope) (hd : m.heap.Allocated (.dict d))
    (howner : m.heap.owner scope = m.heap.owner d)
    (hreturns : Returns rt (.operand op scope .dict [] [] :: m.stack) (m.step rt) m₁)
    (hret : m₁.control = .ret (.dict e)) :
    let g := m₁.heap.hold (.dict e)
    (∃ T, g.Region T ∧ .dict scope ∈ T ∧ .dict e ∈ T) ∧ g.owner scope = g.owner d ∧
      ∃ pins, m₁.step rt = after m.stack m₁.depth m₁.log pins (op.finish scope [.dict e] g) := by
  intro g
  obtain ⟨l, hcontrol, -⟩ := hbegins.list
  have hscope : .dict scope ∈ S := by
    have hin := hm.control
    rw [hcontrol] at hin
    exact hin.2
  obtain ⟨n, rfl⟩ := exists_run_of_step hreturns.exists_run
  obtain ⟨T, hedits, hm₁⟩ := hm.run hrt n
  have hcontained := hedits.contained hm.region
  have he : .dict e ∈ T := by
    have hin := hm₁.control
    rw [hret] at hin
    exact has_dict.mp hin
  have hsame : ∀ c, m.heap.Allocated (.dict c) → g.owner c = m.heap.owner c := by
    intro c hc
    rw [owner, owner, cell_congr (dicts_hold _ _)]
    exact congrArg (·.getD c) (hcontained.target c hc)
  refine ⟨⟨T, hm₁.region.same_objects (lists_hold _ _) (dicts_hold _ _) (natives_hold _ _),
    hcontained.sub hscope, he⟩, ?_, ?_⟩
  · rw [hsame d hd, hsame scope (hm.region.allocated _ hscope), howner]
  · exact ⟨_, step_of_ret rt rfl hret hreturns.rests.stack⟩

/-- A definition with one operand, if it begins next in `scope`, has the operand evaluated there.
It binds the names of the dictionary this comes to in what `d` shows, and nowhere else. -/
def DefinesIn (rt : Runtime) (scope d : DictId) (m : Machine) : Prop :=
  ∀ x, m.BeginsForm "def" x scope →
    (m.step rt).Awaits scope m.stack x (.operand .define scope .dict [] []) ∧
    ∀ m₁ e, Returns rt (.operand .define scope .dict [] [] :: m.stack) (m.step rt) m₁ →
      m₁.control = .ret (.dict e) →
      (m₁.step rt).control = .ret .nil ∧ (m₁.step rt).stack = m.stack ∧
      ∀ c, (m₁.step rt).heap.cell c = if c = m₁.heap.owner d then
        { m₁.heap.cell c with slots := (m₁.heap.cell c).slots.putAll (m₁.heap.slots e) }
        else m₁.heap.cell c

/-- An assignment with one operand, if it begins next in `scope`, has the operand evaluated there.
It rebinds the names of the dictionary this comes to, up to the first that is bound neither by `d`
itself nor behind the scope. -/
def AssignsIn (rt : Runtime) (scope d : DictId) (m : Machine) : Prop :=
  ∀ x, m.BeginsForm "set" x scope →
    (m.step rt).Awaits scope m.stack x (.operand .assign scope .dict [] []) ∧
    ∀ m₁ e, Returns rt (.operand .assign scope .dict [] [] :: m.stack) (m.step rt) m₁ →
      m₁.control = .ret (.dict e) →
      let g := m₁.heap.hold (.dict e)
      ∃ done k, Rebinds d scope g done k ∧ (m₁.step rt).heap.dicts = k.dicts ∧
        (m₁.step rt).stack = m.stack ∧
        (done = g.slots e ∧ (m₁.step rt).control = .ret .nil ∨
        ∃ n v rest error suggestion, g.slots e = done ++ (n, v) :: rest ∧ k.Misses d scope n ∧
          (m₁.step rt).control = .raise error ∧ error.cause = .unbound n suggestion)

/-- The names of the dictionary that the operand has come to are bound in what the environment
shows. -/
theorem step_define {stack : List Frame} (rt : Runtime) (hret : m.control = .ret (.dict c))
    (hstack : m.stack = .operand .define e .dict [] [] :: stack)
    (he : m.heap.Allocated (.dict (m.heap.owner e))) :
    (m.step rt).control = .ret .nil ∧ (m.step rt).stack = stack ∧
      ∀ d, (m.step rt).heap.cell d = if d = m.heap.owner e then
        { m.heap.cell d with slots := (m.heap.cell d).slots.putAll (m.heap.slots c) }
        else m.heap.cell d := by
  have hsame := fun d => cell_congr (d := d) (dicts_hold m.heap (.dict c))
  have howner : (m.heap.hold (.dict c)).owner e = m.heap.owner e := by rw [owner, owner, hsame]
  have hmade : (m.heap.hold (.dict c)).Allocated (.dict ((m.heap.hold (.dict c)).owner e)) := by
    rw [howner]
    simpa [Allocated] using he
  rw [step_of_ret rt (f := .operand .define e .dict [] []) rfl hret hstack]
  refine ⟨rfl, rfl, fun d => ?_⟩
  have hwritten := cell_putAll hmade ((m.heap.hold (.dict c)).slots c) d
  rw [howner, hsame] at hwritten
  rw [← slots_congr (hsame c) (hsame _)]
  exact hwritten

theorem Inside.definesIn (hrt : rt.Tame K) (hm : m.Inside K [] depth S)
    (hd : m.heap.Allocated (.dict d)) (howner : m.heap.owner scope = m.heap.owner d) :
    m.DefinesIn rt scope d := by
  intro x hbegins
  refine ⟨hbegins.awaits rt (by decide) rfl fun _ => rfl, fun m₁ e hreturns hret => ?_⟩
  obtain ⟨⟨T, hregion, hscope, -⟩, howner₁, -⟩ :=
    hm.operand_returns hrt hbegins hd howner hreturns hret
  have hsame := fun c => cell_congr (d := c) (dicts_hold m₁.heap (.dict e))
  have hmade := hregion.allocated _ (hregion.owner hscope)
  simp only [owner, hsame, Allocated, dicts_hold] at howner₁ hmade
  have howner₂ : m₁.heap.owner scope = m₁.heap.owner d := howner₁
  rw [← howner₂]
  exact step_define rt hret hreturns.rests.stack hmade

theorem Inside.assignsIn (hrt : rt.Tame K) (hm : m.Inside K [] depth S)
    (hd : m.heap.Allocated (.dict d)) (howner : m.heap.owner scope = m.heap.owner d) :
    m.AssignsIn rt scope d := by
  intro x hbegins
  refine ⟨hbegins.awaits rt (by decide) rfl fun _ => rfl, fun m₁ e hreturns hret => ?_⟩
  obtain ⟨⟨T, hregion, -, -⟩, howner₁, pins, hstep⟩ :=
    hm.operand_returns hrt hbegins hd howner hreturns hret
  have hordinary : ∀ x ∈ (m₁.heap.hold (.dict e)).slots e, Key.of x.1 = .slot x.1 :=
    fun x hx => hregion.tidy.ordinary _ x hx
  obtain ⟨done, k, hdone, hresult⟩ := assignAll_eq howner₁ hordinary
  refine ⟨done, k, hdone, ?_⟩
  have hfinish : Operation.assign.finish scope [.dict e] (m₁.heap.hold (.dict e)) =
      assignAll scope ((m₁.heap.hold (.dict e)).slots e) (m₁.heap.hold (.dict e)) := rfl
  rw [hstep, hfinish]
  obtain ⟨rfl, hret'⟩ | ⟨n, v, rest, error, suggestion, hslots, hmisses, hraise, hcause⟩ := hresult
  · rw [hret']
    exact ⟨rfl, rfl, .inl ⟨rfl, rfl⟩⟩
  · rw [hraise]
    exact ⟨rfl, rfl, .inr ⟨n, v, rest, error, suggestion, hslots, hmisses, rfl, hcause⟩⟩

end Machine
end DictScript
