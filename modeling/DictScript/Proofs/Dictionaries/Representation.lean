import DictScript.Proofs.Ownership.Links
import DictScript.Proofs.Regions.History

/-!
How dictionaries are represented, at all times: slots never have the name of a link or a short form,
views show dictionaries that are none themselves, and whoever looks at a view sees its target.
-/
namespace DictScript
open Heap
variable {h k : Heap} {d e t : DictId} {m n name : String} {v : Value}

def withheldNames : List String := ["parent", "caller", "^", "@"]

def IsReserved (name : String) : Prop := ∀ n, Key.of name ≠ .slot n

theorem not_mem_withheldNames (hn : Key.of n = .slot n) : n ∉ withheldNames := by
  intro hmem
  simp only [withheldNames, List.mem_cons, List.not_mem_nil, or_false] at hmem
  obtain rfl | rfl | rfl | rfl := hmem <;> exact absurd hn (by decide)

theorem exists_slot_of_not_reserved (hn : ¬ IsReserved name) : ∃ n, Key.of name = .slot n := by
  rw [IsReserved, not_forall] at hn
  obtain ⟨n, hn⟩ := hn
  exact ⟨n, not_not.mp hn⟩

structure Heap.Synonyms (h : Heap) (d : DictId) (m n : String) : Prop where
  holds : h.holds d m = h.holds d n
  get : h.get d m = h.get d n
  define : ∀ v, h.define d m v = h.define d n v
  remove : h.remove d m = h.remove d n
  find : h.find d m = h.find d n
  resolve : h.resolve d m = h.resolve d n

theorem Heap.findFrom_congr (hkey : Key.of m = Key.of n) (fuel : Nat) (d : DictId) :
    h.findFrom m fuel d = h.findFrom n fuel d := by
  induction fuel generalizing d with
  | zero => rfl
  | succ fuel ih =>
    have hholds : h.holds d m = h.holds d n := by simp only [holds, hkey]
    simp only [findFrom, hholds, ih]

theorem Heap.synonyms (hkey : Key.of m = Key.of n) (h : Heap) (d : DictId) : h.Synonyms d m n := by
  have hget : ∀ e, h.get e m = h.get e n := fun e => by simp only [get, hkey]
  have hfind : h.find d m = h.find d n := findFrom_congr hkey _ d
  exact
    { holds := by simp only [holds, hkey]
      get := hget d
      define := fun v => by simp only [define, hkey]
      remove := by simp only [remove, hget, hkey]
      find := hfind
      resolve := by simp only [resolve, hfind, hget] }

structure Heap.SameSlots (h : Heap) (d e : DictId) : Prop where
  holds : ∀ n, ¬ IsReserved n → h.holds d n = h.holds e n
  get : ∀ n, ¬ IsReserved n → h.get d n = h.get e n
  names : h.names d = h.names e
  length : ∀ frame frame', h.get frame "value" = .dict d → h.get frame' "value" = .dict e →
    Primitive.length h frame = Primitive.length h frame'
  define : ∀ n v, ¬ IsReserved n → h.define d n v = h.define e n v
  remove : ∀ n, ¬ IsReserved n → h.remove d n = h.remove e n

theorem Heap.sameSlots (howner : h.owner d = h.owner e) : h.SameSlots d e := by
  have hslots : h.slots d = h.slots e := by rw [slots, slots, howner]
  have hnames : h.names d = h.names e := by rw [names, names, hslots]
  have hget : ∀ n, ¬ IsReserved n → h.get d n = h.get e n := by
    intro n hn
    obtain ⟨n', hn'⟩ := exists_slot_of_not_reserved hn
    simp only [get, hn', hslots]
  exact
    { holds := fun n hn => by
        obtain ⟨n', hn'⟩ := exists_slot_of_not_reserved hn
        simp only [holds, hn', hslots]
      get := hget
      names := hnames
      length := fun frame frame' hd he => by simp only [Primitive.length, hd, he, hnames]
      define := fun n v hn => by
        obtain ⟨n', hn'⟩ := exists_slot_of_not_reserved hn
        simp only [define, hn', put, howner]
      remove := fun n hn => by
        obtain ⟨n', hn'⟩ := exists_slot_of_not_reserved hn
        simp only [remove, hget n hn, hn', eraseSlot, howner] }

inductive Heap.Relinked (h : Heap) (d : DictId) : Heap → Prop where
  | define (name : String) (v : Value) : IsReserved name → Relinked h d (h.define d name v).2
  | remove (name : String) : IsReserved name → Relinked h d (h.remove d name).1
  | setParent (parent : Option DictId) : Relinked h d (h.setParent d parent).2
  | attach (scope : DictId) : Relinked h d (h.attach d scope)

/-- Then the other dictionaries keep theirs. -/
theorem Heap.Relinked.links (hk : h.Relinked d k) (he : e ≠ d) :
    k.parent e = h.parent e ∧ k.caller e = h.caller e ∧
      k.declaredParent e = h.declaredParent e := by
  have hlink : ∀ p declared, (h.link d p declared).parent e = h.parent e ∧
      (h.link d p declared).caller e = h.caller e ∧
      (h.link d p declared).declaredParent e = h.declaredParent e :=
    fun p declared => links_modifyCell (fun _ => rfl) he
  have hcaller : ∀ c, (h.setCaller d c).parent e = h.parent e ∧
      (h.setCaller d c).caller e = h.caller e ∧
      (h.setCaller d c).declaredParent e = h.declaredParent e :=
    fun c => links_modifyCell (fun _ => rfl) he
  have hparent : ∀ p, (h.setParent d p).2.parent e = h.parent e ∧
      (h.setParent d p).2.caller e = h.caller e ∧
      (h.setParent d p).2.declaredParent e = h.declaredParent e := by
    intro p
    unfold Heap.setParent
    split
    · exact hlink none false
    · rename_i p
      split
      · exact ⟨rfl, rfl, rfl⟩
      · exact hlink (some p) true
  cases hk with
  | define name v hname =>
    unfold Heap.define
    split
    · rename_i n hn
      exact (hname n hn).elim
    · exact hparent _
    · exact hparent none
    · exact hcaller _
    · exact hcaller none
    · exact ⟨rfl, rfl, rfl⟩
  | remove name hname =>
    unfold Heap.remove
    simp only
    split
    · exact hlink none false
    · exact hcaller none
    · rename_i n hn
      exact (hname n hn).elim
  | setParent p => exact hparent p
  | attach scope => exact hlink (some scope) false

theorem Heap.Later.reached (hlater : h.Later k) (hh : h.Reached) : k.Reached := by
  obtain ⟨maxDepth, registry, functions, hbefore⟩ := hh
  exact ⟨maxDepth, registry, functions, Relation.ReflTransGen.trans hbefore hlater⟩

/-- What a view shows never changes. -/
theorem Heap.Reached.target_eq (hh : h.Reached) (hlater : h.Later k)
    (hd : h.Allocated (.dict d)) : (k.cell d).target = (h.cell d).target :=
  ((hlater.edits hh.region).contained hh.region).target d hd

/-- However an interpreter gets to a heap: slots have names of their own that are no link's and no
short form, and each name once. A view shows a dictionary that is no view, from the beginning and
for good, and has no slots of its own. So no reserved name is ever listed, a name and its short form
mean the same, a view and its target always show and change the same slots, and links belong to one
of them alone. -/
theorem Heap.Reached.representation (hh : h.Reached) :
    (∀ d, (∀ x ∈ (h.cell d).slots.toList, x.1 ∉ withheldNames) ∧
      ((h.cell d).slots.toList.map Prod.fst).Nodup) ∧
    (∀ d t, (h.cell d).target = some t →
      (h.cell t).target = none ∧ (h.cell d).slots = .empty) ∧
    (∀ d, ∀ n ∈ h.names d, n ∉ withheldNames) ∧
    (∀ d, h.Synonyms d "^" "parent" ∧ h.Synonyms d "@" "self") ∧
    (∀ k, h.Later k → ∀ d t, h.Allocated (.dict d) →
      (k.cell d).target = (h.cell d).target ∧
        ((h.cell d).target = some t → k.SameSlots d t)) ∧
    (∀ d k, h.Relinked d k → ∀ e, e ≠ d →
      k.parent e = h.parent e ∧ k.caller e = h.caller e ∧
        k.declaredParent e = h.declaredParent e) := by
  have htidy := hh.region.tidy
  refine ⟨fun d => ⟨fun x hx => ?_, (h.cell d).slots.nodup⟩, fun d t hd => ?_, fun d n hn => ?_,
    fun d => ?_, fun k hlater d t hmade => ?_, fun d k hk e he => hk.links he⟩
  · exact not_mem_withheldNames (htidy.ordinary d x hx)
  · exact ⟨(htidy.target d t hd).2, htidy.bare d t hd⟩
  · exact not_mem_withheldNames (htidy.names hn)
  · exact ⟨synonyms (by decide) h d, synonyms (by decide) h d⟩
  · have htarget := hh.target_eq hlater hmade
    refine ⟨htarget, fun hd => sameSlots ?_⟩
    rw [hd] at htarget
    have hnone := ((hlater.reached hh).region.tidy.target d t htarget).2
    rw [owner, owner, htarget, hnone]
    rfl

def Interpreter.withView : Heap := ((HostOp.view ⟨0⟩ ⟨0⟩).run (standard 100).heap).1

theorem Heap.reached_withView : Interpreter.withView.Reached := by
  have hroot : (Interpreter.standard 100).heap.Allocated (.dict ⟨0⟩) := by decide +kernel
  refine ⟨100, Registry.standard, fun _ => none, .single (.operation (.view ⟨0⟩ ⟨0⟩) ?_)⟩
  intro v hv r hr
  simp only [HostOp.held, List.mem_cons, List.not_mem_nil, or_false, or_self] at hv
  rw [hv] at hr
  exact List.mem_singleton.mp hr ▸ hroot

/-- What is defined through the view is then in the root environment. -/
theorem Heap.Reached.representation_withView : ∃ h k : Heap, h.Reached ∧ h.Later k ∧
    (h.cell ⟨20⟩).target = some ⟨0⟩ ∧ h.holds ⟨0⟩ "x" = false ∧ k.SameSlots ⟨20⟩ ⟨0⟩ ∧
    k.holds ⟨20⟩ "x" = true ∧ k.holds ⟨0⟩ "x" = true := by
  obtain ⟨-, -, -, -, hviews, -⟩ := reached_withView.representation
  have hmade : Interpreter.withView.Allocated (.dict ⟨20⟩) := by decide +kernel
  have htarget : (Interpreter.withView.cell ⟨20⟩).target = some ⟨0⟩ := by decide +kernel
  have hlater : Interpreter.withView.Later
      ((HostOp.define ⟨20⟩ "x" (.bool true)).run Interpreter.withView).1 := by
    refine .single (.operation (.define ⟨20⟩ "x" (.bool true)) ?_)
    intro v hv r hr
    simp only [HostOp.held, List.mem_cons, List.not_mem_nil, or_false] at hv
    obtain rfl | rfl := hv
    · exact List.mem_singleton.mp hr ▸ hmade
    · exact (List.not_mem_nil hr).elim
  have hsame := (hviews _ hlater ⟨20⟩ ⟨0⟩ hmade).2 htarget
  have hshown : ((HostOp.define ⟨20⟩ "x" (.bool true)).run Interpreter.withView).1.holds ⟨20⟩ "x" =
      true := by decide +kernel
  have hordinary : ¬ IsReserved "x" := fun hx => hx "x" (by decide)
  exact ⟨_, _, reached_withView, hlater, htarget, by decide +kernel, hsame, hshown,
    (hsame.holds "x" hordinary).symm.trans hshown⟩

end DictScript
