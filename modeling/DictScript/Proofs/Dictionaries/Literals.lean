import DictScript.Proofs.Calls.Evaluation
import DictScript.Proofs.Calls.Retention
import DictScript.Proofs.Ownership.Enlarged

/-!
What a dictionary literal comes to. Its entries are evaluated one after another through a view of
the new dictionary, which shows the entries before and, behind them, the environment.
-/
namespace DictScript
open Heap
variable {rt : Runtime} {h k base : Heap} {e d p literal dict scope : DictId} {v w : Value}
variable {name : String} {ns : List String} {vs : List Value} {stack : List Frame} {depth : Nat}
variable {log : List String} {f : Frame} {m m' m₁ : Machine} {declared : Bool} {ds : Set DictId}
variable {xs ys done todo stored : List (String × Value)} {es : List Value}

def Stored (name : String) : Value → Value → Prop
  | .block b, w =>
    if b.name = none then ∃ id, w = .block { b with id := id, name := some name } else w = .block b
  | v, w => w = v

inductive Records : List String → List Value → List (String × Value) → Prop where
  | nil : Records [] [] []
  | cons {name : String} {v w : Value} {ns : List String} {vs : List Value}
      {xs : List (String × Value)} : Stored name v w → Records ns vs xs →
      Records (name :: ns) (v :: vs) ((name, w) :: xs)

theorem Records.names_eq (hxs : Records ns vs xs) : xs.map Prod.fst = ns := by
  induction hxs with
  | nil => rfl
  | cons _ _ ih => rw [List.map_cons, ih]

theorem Records.nil_inv (hxs : Records [] [] xs) : xs = [] := by
  cases hxs
  rfl

theorem Records.cons_inv (hxs : Records (name :: ns) (v :: vs) xs) :
    ∃ w ys, xs = (name, w) :: ys ∧ Stored name v w ∧ Records ns vs ys := by
  obtain _ | ⟨hw, hys⟩ := hxs
  exact ⟨_, _, rfl, hw, hys⟩

theorem stored_nameBlock (name : String) (v : Value) (h : Heap) :
    Stored name v (nameBlock name v h).2 ∧ (nameBlock name v h).1.dicts = h.dicts := by
  cases v with
  | block b =>
    cases hname : b.name with
    | none => simp [Stored, nameBlock, hname, newBlock]
    | some n => simp [Stored, nameBlock, hname]
  | _ => exact ⟨rfl, rfl⟩

/-! The new dictionary, and the view of it in which the entries are evaluated. -/

namespace Heap

def openLiteral (h : Heap) (e p : DictId) (declared : Bool) : Heap :=
  (((h.newDict {}).1.link ⟨h.dicts.size⟩ (some p) declared).view ⟨h.dicts.size⟩ e).1

theorem cell_openLiteral (h : Heap) (e p : DictId) (declared : Bool) (d : DictId) :
    (h.openLiteral e p declared).cell d =
      if d.index = h.dicts.size + 1 then
        { parent := some e, scope := some e, target := some ⟨h.dicts.size⟩ }
      else if d.index = h.dicts.size then { parent := some p, declared := declared }
      else h.cell d := by
  have hmade : (h.newDict {}).1.Allocated (.dict ⟨h.dicts.size⟩) :=
    (allocated_newDict {}).mpr (.inl rfl)
  have hnew : (h.newDict {}).1.cell ⟨h.dicts.size⟩ = {} := by rw [cell_newDict, if_pos rfl]
  have hlinked : ∀ d, ((h.newDict {}).1.link ⟨h.dicts.size⟩ (some p) declared).cell d =
      if d.index = h.dicts.size then { parent := some p, declared := declared } else h.cell d := by
    intro d
    rw [link, cell_modifyCell hmade, hnew, cell_newDict]
    obtain ⟨i⟩ := d
    simp only [DictId.mk.injEq]
    split <;> simp_all
  have hsize : ((h.newDict {}).1.link ⟨h.dicts.size⟩ (some p) declared).dicts.size =
      h.dicts.size + 1 := by
    simp [link, modifyCell, newDict]
  rw [openLiteral, view, cell_newDict, hsize, owner, hlinked, hlinked]
  simp

theorem cell_openLiteral_old (hd : h.Allocated (.dict d)) :
    (h.openLiteral e p declared).cell d = h.cell d := by
  have hlt : d.index < h.dicts.size := hd
  rw [cell_openLiteral, if_neg (by omega), if_neg (by omega)]

theorem owner_openLiteral (hd : h.Allocated (.dict d)) (e p : DictId) (declared : Bool) :
    (h.openLiteral e p declared).owner d = h.owner d := by
  rw [owner, owner, cell_openLiteral_old hd]

theorem Complete.slots_openLiteral (hh : h.Complete) (hd : h.Allocated (.dict d)) :
    (h.openLiteral e p declared).slots d = h.slots d := by
  rw [slots, slots, owner_openLiteral hd e p declared, cell_openLiteral_old (hh.owner hd)]

end Heap

/-- A literal keeps the parent that is declared for it. Else it attaches to the nearest dictionary
that is no view. -/
def Heap.Adopts (h : Heap) (literal e p : DictId) (declared : Bool) : Prop :=
  match h.declaredParent literal with
  | some q => p = q ∧ declared = true
  | none => declared = false ∧
      ∀ a, Relation.ReflTransGen h.Skips e a → h.isView a = false → p = a

theorem Heap.enlarged_newDict (hh : h.Complete) : h.Enlarged (h.newDict {}).1 where
  grown := grown_newDict h {}
  natives := rfl
  fresh o ho r hr := by
    have hnone : h.owned o = [] := owned_of_not_allocated ho
    cases o with
    | dict d =>
      rw [owned, cell_newDict] at hr
      split at hr
      · cases hr
      · rw [owned] at hnone
        rw [hnone] at hr
        cases hr
    | list l => exact absurd (hnone ▸ hr) List.not_mem_nil
    | native n => exact absurd (hnone ▸ hr) List.not_mem_nil
  held r hr := living_of_mem hr
  kept r hr := ⟨(allocated_newDict {}).mpr (.inr (hh.held r hr)), fun _ => living_of_mem hr⟩

theorem evalLiteral_eq (hh : h.Complete) (hlit : h.Allocated (.dict literal))
    (he : h.Allocated (.dict e)) : ∃ p declared, h.Adopts literal e p declared ∧
      evalLiteral literal e h = evalEntries literal ⟨h.dicts.size⟩ ⟨h.dicts.size + 1⟩
        (h.names literal) (h.openLiteral e p declared) := by
  have hk := enlarged_newDict hh
  have hnames : ∀ p declared, (h.openLiteral e p declared).names literal = h.names literal :=
    fun p declared => congrArg (List.map Prod.fst) (hh.slots_openLiteral hlit)
  have hview : ∀ p declared,
      (((h.newDict {}).1.link ⟨h.dicts.size⟩ (some p) declared).view ⟨h.dicts.size⟩ e).2 =
        ⟨h.dicts.size + 1⟩ := by
    intro p declared
    simp [view, newDict, link, modifyCell]
  have hopen : ∀ p declared, evalEntries literal ⟨h.dicts.size⟩
      (((h.newDict {}).1.link ⟨h.dicts.size⟩ (some p) declared).view ⟨h.dicts.size⟩ e).2
      ((h.openLiteral e p declared).names literal) (h.openLiteral e p declared) =
      evalEntries literal ⟨h.dicts.size⟩ ⟨h.dicts.size + 1⟩ (h.names literal)
        (h.openLiteral e p declared) := by
    intro p declared
    rw [hview, hnames]
  have hdeclared := hk.declaredParent hh hlit
  cases hparent : h.declaredParent literal with
  | some q =>
    refine ⟨q, true, by rw [Adopts, hparent]; exact ⟨rfl, rfl⟩, Eq.trans ?_ (hopen q true)⟩
    rw [hparent] at hdeclared
    unfold evalLiteral
    simp only [hdeclared]
    rfl
  | none =>
    refine ⟨(h.newDict {}).1.anchor e, false, ?_, Eq.trans ?_ (hopen _ false)⟩
    · rw [Adopts, hparent]
      exact ⟨rfl, fun a ha hview => hk.anchor hh he ha hview⟩
    · rw [hparent] at hdeclared
      unfold evalLiteral
      simp only [hdeclared]
      rfl

/-! Entry by entry. -/

namespace Machine

/-- When the expressions are evaluated one after another from `m` on, the evaluation of each leaves
the dictionaries as they are. -/
def Untouched (rt : Runtime) (env : DictId) (stack : List Frame) (ds : Set DictId)
    (es : List Value) (m : Machine) : Prop :=
  ∀ i ws m₁ e f m₂, Evaluates rt env stack (es.take i) ws m m₁ → es[i]? = some e →
    m₁.Awaits env stack e f → Returns rt (f :: stack) m₁ m₂ →
    ∀ d ∈ ds, m₂.heap.cell d = m₁.heap.cell d

theorem Untouched.head (hm : Untouched rt scope stack ds (v :: es) m)
    (hawaits : m.Awaits scope stack v f) (hreturns : Returns rt (f :: stack) m m₁) :
    ∀ d ∈ ds, m₁.heap.cell d = m.heap.cell d :=
  hm 0 [] m v f m₁ .done rfl hawaits hreturns

theorem Untouched.tail (hm : Untouched rt scope stack ds (v :: es) m)
    (hawaits : m.Awaits scope stack v f) (hreturns : Returns rt (f :: stack) m m₁)
    (hret : m₁.control = .ret w) : Untouched rt scope stack ds es (m₁.step rt) :=
  fun i ws m₂ e g m₃ hws he => hm (i + 1) (w :: ws) m₂ e g m₃ (.next hawaits hreturns hret hws) he

theorem Untouched.nil : Untouched rt scope stack ds [] m :=
  fun _ _ _ _ _ _ _ he => nomatch he

theorem Untouched.cons (hawaits : m.Awaits scope stack v f)
    (hreturns : Returns rt (f :: stack) m m₁) (hcells : ∀ d ∈ ds, m₁.heap.cell d = m.heap.cell d)
    (hrest : Untouched rt scope stack ds es (m₁.step rt)) :
    Untouched rt scope stack ds (v :: es) m := by
  intro i ws m₂ e g m₃ hws he hawaits' hreturns'
  cases i with
  | zero =>
    cases hws
    cases hawaits.returns_eq hawaits' hreturns hreturns'
    exact hcells
  | succ i =>
    cases hws with
    | next hawaits'' hreturns'' _ hws =>
      cases hawaits.returns_eq hawaits'' hreturns hreturns''
      exact hrest i _ m₂ e g m₃ hws he hawaits' hreturns'

structure Fills (stack : List Frame) (literal dict scope : DictId) (base : Heap)
    (done todo : List (String × Value)) (m : Machine) : Prop where
  next : ∃ depth log pins g, m = after stack depth log pins
    (evalEntries literal dict scope (todo.map Prod.fst) g)
  filled : ∃ s : Slots, s.toList = done ∧ m.heap.cell dict = { base.cell dict with slots := s }
  others : ∀ d ∈ ({scope, literal, base.owner literal} : Set DictId),
    m.heap.cell d = base.cell d

theorem dicts_evalEntries (stack : List Frame) (depth : Nat) (log : List String)
    (pins : List (List Value)) (literal dict scope : DictId) (ns : List String) (g : Heap) :
    (after stack depth log pins (evalEntries literal dict scope ns g)).heap.dicts = g.dicts := by
  cases ns <;> rfl

end Machine

namespace Heap

structure Opened (base : Heap) (literal dict scope e p : DictId) : Prop where
  parent : (base.cell dict).parent = some p
  target : (base.cell dict).target = none
  view : (base.cell scope).target = some dict
  behind : (base.cell scope).parent = some e ∧ (base.cell scope).scope = some e
  new : dict ∉ ({scope, literal, base.owner literal} : Set DictId)

theorem Complete.opened (hh : h.Complete) (hlit : h.Allocated (.dict literal)) (e p : DictId)
    (declared : Bool) : (h.openLiteral e p declared).Opened literal ⟨h.dicts.size⟩
      ⟨h.dicts.size + 1⟩ e p := by
  have hlt : literal.index < h.dicts.size := hlit
  have howner : (h.owner literal).index < h.dicts.size := hh.owner hlit
  refine ⟨?_, ?_, ?_, ?_, ?_⟩
  · simp [cell_openLiteral]
  · simp [cell_openLiteral]
  · simp [cell_openLiteral]
  · simp [cell_openLiteral]
  · rw [owner_openLiteral hlit]
    rintro (heq | heq | heq)
    · exact Nat.succ_ne_self _ (congrArg DictId.index heq).symm
    · exact Nat.ne_of_gt hlt (congrArg DictId.index heq)
    · exact Nat.ne_of_gt howner (congrArg DictId.index heq)

end Heap

namespace Machine.Fills

theorem get_literal (hm : m.Fills stack literal dict scope base done todo)
    (hname : Key.of name = .slot name) : m.heap.get literal name = base.get literal name := by
  have hslots : m.heap.slots literal = base.slots literal :=
    slots_congr (hm.others _ (by simp)) (hm.others _ (by simp))
  simp only [Heap.get, hname, hslots]

/-- The next expression is that of the literal. -/
theorem awaits (hm : m.Fills stack literal dict scope base done ((name, v) :: todo))
    (hname : Key.of name = .slot name) (hv : base.get literal name = v) :
    m.Awaits scope stack v (.entry literal dict scope v name (todo.map Prod.fst)) := by
  have hget := (hm.get_literal hname).trans hv
  obtain ⟨depth, log, pins, g, rfl⟩ := hm.next
  have hexpr : g.get literal name = v := by
    rw [← hget]
    simp only [Heap.get, hname]
    rfl
  constructor <;> simp [after, proceed, evalEntries, Move.eval, hexpr]

/-- When all entries are stored, the new dictionary is there. -/
theorem returns (hm : m.Fills stack literal dict scope base done []) :
    m.control = .ret (.dict dict) ∧ m.stack = stack := by
  obtain ⟨depth, log, pins, g, rfl⟩ := hm.next
  exact ⟨rfl, rfl⟩

variable (ho : base.Opened literal dict scope e p)
include ho

theorem slots_dict (hm : m.Fills stack literal dict scope base done todo) :
    m.heap.slots dict = done := by
  obtain ⟨s, hs, hcell⟩ := hm.filled
  have howner : m.heap.owner dict = dict := by rw [owner, hcell, ho.target]; rfl
  rw [slots, howner, hcell, hs]

/-- What an entry sees: the entries before it, and else what the environment has. -/
theorem seen (hm : m.Fills stack literal dict scope base done todo) (hname : Ordinary name) :
    m.heap.seen scope name = (done.lookup (canonical name)).or (m.heap.seen e name) := by
  have hcell := hm.others scope (by simp)
  have howner : m.heap.owner scope = m.heap.owner dict := by
    obtain ⟨s, -, hdict⟩ := hm.filled
    rw [owner, owner, hcell, hdict, ho.view, ho.target]
    rfl
  have hslots : m.heap.slots scope = done := by
    rw [← hm.slots_dict ho, slots, slots, howner]
  have hparent : m.heap.parent scope = some e := by
    rw [Heap.parent, hcell, ho.behind.1, ho.behind.2]
    simp
  rw [seen_step hname.1, hslots, hparent, Option.bind_some]

/-- The value of an entry is stored, and the next one comes. -/
theorem step (hm : m.Fills stack literal dict scope base done ((name, v) :: todo))
    (hnew : name ∉ done.map Prod.fst)
    (hreturns : Returns rt (.entry literal dict scope v name (todo.map Prod.fst) :: stack) m m₁)
    (hret : m₁.control = .ret w)
    (hkept : ∀ d ∈ ({dict, scope, literal, base.owner literal} : Set DictId),
      m₁.heap.cell d = m.heap.cell d) :
    ∃ u, Stored name w u ∧
      (m₁.step rt).Fills stack literal dict scope base (done ++ [(name, u)]) todo := by
  obtain ⟨s, hs, hfilled⟩ := hm.filled
  obtain ⟨hstored, hdicts⟩ := stored_nameBlock name w (m₁.heap.hold w)
  rw [dicts_hold] at hdicts
  set g := (nameBlock name w (m₁.heap.hold w)).1
  set u := (nameBlock name w (m₁.heap.hold w)).2
  obtain ⟨depth, log, pins, hstep⟩ : ∃ depth log pins, m₁.step rt = after stack depth log pins
      (evalEntries literal dict scope (todo.map Prod.fst) (g.put dict name u)) :=
    ⟨_, _, _, step_of_ret rt (f := .entry literal dict scope v name (todo.map Prod.fst)) rfl hret
      hreturns.rests.stack⟩
  have hcell : ∀ d ∈ ({dict, scope, literal, base.owner literal} : Set DictId),
      g.cell d = m.heap.cell d := fun d hd => (cell_congr hdicts).trans (hkept d hd)
  have hdict : g.cell dict = { base.cell dict with slots := s } :=
    (hcell dict (by simp)).trans hfilled
  have hmade : g.Allocated (.dict dict) := by
    by_contra hnot
    have hparent := congrArg DictCell.parent hdict
    rw [cell_of_size_le (Nat.le_of_not_lt hnot)] at hparent
    exact nomatch hparent.trans ho.parent
  have hput : ∀ d, (m₁.step rt).heap.cell d =
      if d = dict then { base.cell dict with slots := s.put name u } else g.cell d := by
    intro d
    have howner : g.owner dict = dict := by rw [owner, hdict, ho.target]; rfl
    rw [hstep, cell_congr (dicts_evalEntries _ _ _ _ _ _ _ _ _), put, howner,
      cell_modifyCell hmade, hdict]
  refine ⟨u, hstored, ⟨depth, log, pins, g.put dict name u, hstep⟩, ⟨s.put name u, ?_, ?_⟩,
    fun d hd => ?_⟩
  · subst hs
    exact putSlot_of_not_mem hnew
  · exact (hput dict).trans (if_pos rfl)
  · have hne : d ≠ dict := by
      rintro rfl
      exact ho.new hd
    exact ((hput d).trans (if_neg hne)).trans ((hcell d (.inr hd)).trans (hm.others d hd))

/-! All entries. -/

variable (hnames : ∀ x ∈ xs ++ todo, Key.of x.1 = .slot x.1 ∧ base.get literal x.1 = x.2)
variable (hnodup : ((done ++ (xs ++ todo)).map Prod.fst).Nodup)
variable (huntouched : Untouched rt scope stack {dict, scope, literal, base.owner literal}
  ((xs ++ todo).map Prod.snd) m)
include hnames hnodup huntouched

/-- As far as the entries are evaluated, they are stored. -/
theorem evaluates (hm : m.Fills stack literal dict scope base done (xs ++ todo))
    (hvs : Evaluates rt scope stack (xs.map Prod.snd) vs m m') :
    ∃ stored, Records (xs.map Prod.fst) vs stored ∧
      m'.Fills stack literal dict scope base (done ++ stored) todo := by
  induction xs generalizing done vs m with
  | nil =>
    cases hvs
    exact ⟨[], .nil, by rwa [List.append_nil]⟩
  | cons x xs ih =>
    obtain ⟨name, v⟩ := x
    obtain ⟨hname, hv⟩ := hnames _ List.mem_cons_self
    cases hvs with
    | next hawaits hreturns hret hrest =>
      have hwaits := hm.awaits hname hv
      cases hawaits.frame_eq hwaits
      have hnew : name ∉ done.map Prod.fst := by
        rw [List.map_append] at hnodup
        exact fun hold => List.disjoint_of_nodup_append hnodup hold List.mem_cons_self
      obtain ⟨u, hu, hm'⟩ := hm.step ho hnew hreturns hret (huntouched.head hawaits hreturns)
      obtain ⟨stored, hstored, hfills⟩ := ih (fun y hy => hnames y (List.mem_cons_of_mem _ hy))
        (by simpa using hnodup) (huntouched.tail hawaits hreturns hret) hm' hrest
      exact ⟨(name, u) :: stored, .cons hu hstored, by simpa using hfills⟩

end Machine.Fills

namespace Machine

/-- Each entry is evaluated once and in order, until one fails or is never done. -/
theorem Fills.stops_or_evaluates (ho : base.Opened literal dict scope e p)
    (hnames : ∀ x ∈ todo, Key.of x.1 = .slot x.1 ∧ base.get literal x.1 = x.2)
    (hnodup : ((done ++ todo).map Prod.fst).Nodup)
    (huntouched : Untouched rt scope stack {dict, scope, literal, base.owner literal}
      (todo.map Prod.snd) m)
    (hm : m.Fills stack literal dict scope base done todo) :
    Stops rt scope stack (todo.map Prod.snd) m ∨
      ∃ vs m', Evaluates rt scope stack (todo.map Prod.snd) vs m m' := by
  induction todo generalizing done m with
  | nil => exact .inr ⟨[], m, .done⟩
  | cons x todo ih =>
    obtain ⟨name, v⟩ := x
    obtain ⟨hname, hv⟩ := hnames _ List.mem_cons_self
    have hawaits := hm.awaits hname hv
    have hnew : name ∉ done.map Prod.fst := by
      rw [List.map_append] at hnodup
      exact fun hold => List.disjoint_of_nodup_append hnodup hold List.mem_cons_self
    refine (hawaits.stops_or_evaluates (P := fun _ _ => True) (fun _ _ _ => rfl)
      fun w m₁ hreturns hret => ?_).imp_right fun ⟨vs, m', hvs, _⟩ => ⟨vs, m', hvs⟩
    obtain ⟨u, -, hm'⟩ := hm.step ho hnew hreturns hret (huntouched.head hawaits hreturns)
    refine (ih (fun y hy => hnames y (List.mem_cons_of_mem _ hy)) (by simpa using hnodup)
      (huntouched.tail hawaits hreturns hret) hm').imp_right ?_
    rintro ⟨vs, m', hvs⟩
    exact ⟨vs, m', hvs, trivial⟩

/-- The machine as it begins to evaluate the entries of a literal. -/
theorem fills_literal (rt : Runtime) (hh : h.Complete) (hlit : h.Allocated (.dict literal))
    (he : h.Allocated (.dict e)) (stack : List Frame) (depth : Nat) (log : List String) :
    ∃ p declared, h.Adopts literal e p declared ∧
      (step rt ⟨.eval (.dict literal) e, stack, depth, h, log⟩).Fills stack literal ⟨h.dicts.size⟩
        ⟨h.dicts.size + 1⟩ (h.openLiteral e p declared) [] (h.slots literal) := by
  obtain ⟨p, declared, hadopts, heq⟩ := evalLiteral_eq hh hlit he
  refine ⟨p, declared, hadopts, ?_⟩
  obtain ⟨pins, hstep⟩ : ∃ pins, step rt ⟨.eval (.dict literal) e, stack, depth, h, log⟩ =
      after stack depth log pins (evalEntries literal ⟨h.dicts.size⟩ ⟨h.dicts.size + 1⟩
        (h.names literal) (h.openLiteral e p declared)) :=
    ⟨(evalLiteral literal e h).2.pins, by rw [← heq]; rfl⟩
  have hcell : ∀ d, (step rt ⟨.eval (.dict literal) e, stack, depth, h, log⟩).heap.cell d =
      (h.openLiteral e p declared).cell d := by
    intro d
    rw [hstep, cell_congr (dicts_evalEntries _ _ _ _ _ _ _ _ _)]
  refine ⟨⟨depth, log, pins, _, hstep⟩, ⟨.empty, rfl, ?_⟩, fun d _ => hcell d⟩
  rw [hcell, cell_openLiteral]
  simp

/-- A literal makes a dictionary that was not there. Its expressions are evaluated once and in
order, unless one stops it, and each sees the slots that are there by then and else what the
environment has. After the last one the new dictionary has the names of the literal in their order,
with a parent that is declared for the literal or the nearest dictionary around that is no view. The
expressions may do anything but write to the new dictionary, the view they are evaluated in, and the
literal. -/
theorem literal_evaluated (hh : h.Complete) (hlit : h.Allocated (.dict literal))
    (he : h.Allocated (.dict e)) (hordinary : ∀ n ∈ h.names literal, Key.of n = .slot n) :
    let start := step rt ⟨.eval (.dict literal) e, stack, depth, h, log⟩
    let dict : DictId := ⟨h.dicts.size⟩
    let scope : DictId := ⟨h.dicts.size + 1⟩
    let es := (h.slots literal).map Prod.snd
    Untouched rt scope stack {dict, scope, literal, h.owner literal} es start →
    (Stops rt scope stack es start ∨ ∃ vs m, Evaluates rt scope stack es vs start m) ∧
    (∀ i ws m, Evaluates rt scope stack (es.take i) ws start m →
      Records ((h.names literal).take i) ws (m.heap.slots dict) ∧
      ∀ name, Ordinary name → m.heap.seen scope name =
        ((m.heap.slots dict).lookup (canonical name)).or (m.heap.seen e name)) ∧
    (∀ vs m, Evaluates rt scope stack es vs start m →
      m.control = .ret (.dict dict) ∧ m.stack = stack ∧ ¬ h.Allocated (.dict dict) ∧
      m.heap.names dict = h.names literal ∧ Records (h.names literal) vs (m.heap.slots dict) ∧
      (∃ p declared, h.Adopts literal e p declared ∧ (m.heap.cell dict).parent = some p ∧
        (m.heap.cell dict).declared = declared) ∧
      m.heap.cell literal = h.cell literal ∧
      m.heap.cell (h.owner literal) = h.cell (h.owner literal)) := by
  intro start dict scope es huntouched
  obtain ⟨p, declared, hadopts, hfills⟩ := fills_literal rt hh hlit he stack depth log
  have ho := hh.opened hlit e p declared
  rw [← owner_openLiteral hlit e p declared] at huntouched
  have hnames : ∀ x ∈ h.slots literal, Key.of x.1 = .slot x.1 ∧
      (h.openLiteral e p declared).get literal x.1 = x.2 := by
    intro x hx
    have hname := hordinary x.1 (List.mem_map.mpr ⟨x, hx, rfl⟩)
    refine ⟨hname, ?_⟩
    simp only [Heap.get, hname, hh.slots_openLiteral hlit, lookup_slots_iff.mpr hx, Option.getD_some]
  have hnodup : (([] ++ h.slots literal).map Prod.fst).Nodup := h.names_nodup literal
  have hsome : ∀ i ws m, Evaluates rt scope stack (es.take i) ws start m →
      ∃ stored, Records ((h.names literal).take i) ws stored ∧
        m.Fills stack literal dict scope (h.openLiteral e p declared) stored
          ((h.slots literal).drop i) := by
    intro i ws m hws
    have hsplit := List.take_append_drop i (h.slots literal)
    rw [names, ← List.map_take]
    rw [← List.map_take] at hws
    exact Fills.evaluates ho (by rwa [hsplit]) (by rwa [hsplit]) (by rwa [hsplit])
      (by rwa [hsplit]) hws
  refine ⟨hfills.stops_or_evaluates ho hnames hnodup huntouched, fun i ws m hws => ?_,
    fun vs m hvs => ?_⟩
  · obtain ⟨stored, hstored, hm⟩ := hsome i ws m hws
    rw [hm.slots_dict ho]
    exact ⟨hstored, fun name hname => hm.seen ho hname⟩
  · obtain ⟨stored, hstored, hm⟩ := hsome (h.slots literal).length vs m
      (by rwa [List.take_of_length_le (by rw [List.length_map])])
    rw [List.take_of_length_le (by rw [names, List.length_map])] at hstored
    rw [List.drop_length] at hm
    obtain ⟨hcontrol, hstack⟩ := hm.returns
    have hslots := hm.slots_dict ho
    obtain ⟨s, -, hcell⟩ := hm.filled
    have hopen : (h.openLiteral e p declared).cell dict =
        { parent := some p, declared := declared } := by
      rw [cell_openLiteral, if_neg (Nat.ne_of_lt (Nat.lt_succ_self _)), if_pos rfl]
    rw [hopen] at hcell
    refine ⟨hcontrol, hstack, Nat.lt_irrefl _, ?_, ?_, ⟨p, declared, hadopts, ?_, ?_⟩, ?_, ?_⟩
    · rw [names, hslots, hstored.names_eq]
    · rwa [hslots]
    · rw [hcell]
    · rw [hcell]
    · rw [hm.others _ (by simp), cell_openLiteral_old hlit]
    · exact (hm.others _ (by simp [owner_openLiteral hlit])).trans
        (cell_openLiteral_old (hh.owner hlit))

end Machine

/-- `{a = [x | x] b = [a y]}`, and the environment `{y = true}`. -/
def Heap.applying : Heap where
  lists := #[#[.sym "x", .sym "|", .sym "x"], #[.sym "a", .sym "y"]]
  dicts := #[{ slots := Slots.empty.put "y" (.bool true) },
    { slots := (Slots.empty.put "a" (.list ⟨0⟩)).put "b" (.list ⟨1⟩) }]
  roots := [.dict ⟨0⟩, .dict ⟨1⟩]

theorem Heap.complete_applying : applying.Complete := by
  have howned : ∀ r, ∀ o ∈ applying.owned r, o = .list ⟨0⟩ ∨ o = .list ⟨1⟩ := by
    intro r o ho
    match r with
    | .dict ⟨1⟩ =>
      have ho : o ∈ [Ref.list ⟨0⟩, .list ⟨1⟩] := ho
      simpa using ho
    | .list ⟨0⟩ | .list ⟨1⟩ | .list ⟨_ + 2⟩ => exact nomatch ho
    | .dict ⟨0⟩ | .dict ⟨_ + 2⟩ | .native _ => exact nomatch ho
  have hlinks : ∀ d, (applying.cell d).parent = none ∧ (applying.cell d).caller = none := by
    rintro ⟨_ | _ | i⟩ <;> exact ⟨rfl, rfl⟩
  refine ⟨fun r hr => ?_, fun r _ o ho => ?_, fun d p hp => ?_, fun d c hc => ?_⟩
  · have hr : r ∈ [Ref.dict ⟨0⟩, .dict ⟨1⟩] := hr
    simp only [List.mem_cons, List.not_mem_nil, or_false] at hr
    obtain rfl | rfl := hr
    · exact Nat.zero_lt_two
    · exact Nat.one_lt_two
  · obtain rfl | rfl := howned r o ho
    · exact Nat.zero_lt_two
    · exact Nat.one_lt_two
  · exact nomatch (hlinks d).1.symm.trans hp
  · exact nomatch (hlinks d).2.symm.trans hc

namespace Machine

/-- `{a = [x | x] b = [a y]}` evaluated where `y` is true: the second entry calls what the first one
has stored, and `y` is that of the environment. -/
theorem literal_evaluated_call :
    let rt := (Interpreter.standard 100).runtime
    let start := step rt ⟨.eval (.dict ⟨1⟩) ⟨0⟩, [], 0, applying, []⟩
    let b : Block := ⟨0, none, ["x"], [.sym "x"], ⟨3⟩, none⟩
    ∃ m₁ m, (Evaluates rt ⟨3⟩ [] [.list ⟨0⟩] [.block b] start m₁ ∧
        (∃ id, m₁.heap.seen ⟨3⟩ "a" = some (.block { b with id := id, name := some "a" })) ∧
        m₁.heap.seen ⟨3⟩ "b" = none ∧ m₁.heap.seen ⟨3⟩ "y" = some (.bool true)) ∧
      Evaluates rt ⟨3⟩ [] [.list ⟨0⟩, .list ⟨1⟩] [.block b, .bool true] start m ∧
      m.control = .ret (.dict ⟨2⟩) ∧
      (∃ id, m.heap.slots ⟨2⟩ =
        [("a", .block { b with id := id, name := some "a" }), ("b", .bool true)]) ∧
      ((m.heap.cell ⟨2⟩).parent = some ⟨0⟩ ∧ (m.heap.cell ⟨2⟩).declared = false) ∧
      m.heap.cell ⟨1⟩ = applying.cell ⟨1⟩ := by
  intro rt start b
  let second := (start.run rt 1).step rt
  have hawaits₁ : start.Awaits ⟨3⟩ [] (.list ⟨0⟩) (.entry ⟨1⟩ ⟨2⟩ ⟨3⟩ (.list ⟨0⟩) "a" ["b"]) :=
    ⟨rfl, rfl⟩
  have hawaits₂ : second.Awaits ⟨3⟩ [] (.list ⟨1⟩) (.entry ⟨1⟩ ⟨2⟩ ⟨3⟩ (.list ⟨1⟩) "b" []) :=
    ⟨rfl, rfl⟩
  have hreturns₁ : Returns rt [.entry ⟨1⟩ ⟨2⟩ ⟨3⟩ (.list ⟨0⟩) "a" ["b"]] start (start.run rt 1) :=
    returns_run (by decide +kernel) ⟨rfl, nofun⟩
  have hreturns₂ : Returns rt [.entry ⟨1⟩ ⟨2⟩ ⟨3⟩ (.list ⟨1⟩) "b" []] second (second.run rt 8) :=
    returns_run (by decide +kernel) ⟨rfl, nofun⟩
  have hone : Evaluates rt ⟨3⟩ [] [.list ⟨0⟩] [.block b] start second :=
    .next hawaits₁ hreturns₁ rfl .done
  have hboth : Evaluates rt ⟨3⟩ [] [.list ⟨0⟩, .list ⟨1⟩] [.block b, .bool true] start
      ((second.run rt 8).step rt) :=
    .next hawaits₁ hreturns₁ rfl (.next hawaits₂ hreturns₂ rfl .done)
  have huntouched : Untouched rt ⟨3⟩ [] {⟨2⟩, ⟨3⟩, ⟨1⟩, ⟨1⟩} [.list ⟨0⟩, .list ⟨1⟩] start := by
    refine .cons hawaits₁ hreturns₁ ?_ (.cons hawaits₂ hreturns₂ ?_ .nil)
    · rintro d (rfl | rfl | rfl | rfl) <;> rfl
    · rintro d (rfl | rfl | rfl | rfl) <;> rfl
  have hlit : applying.Allocated (.dict ⟨1⟩) := Nat.one_lt_two
  have he : applying.Allocated (.dict ⟨0⟩) := Nat.zero_lt_two
  obtain ⟨-, hsome, hall⟩ := literal_evaluated complete_applying hlit he (by decide) huntouched
  obtain ⟨hfirst, hseen⟩ : Records ["a"] [.block b] (second.heap.slots ⟨2⟩) ∧
      ∀ name, Ordinary name → second.heap.seen ⟨3⟩ name =
        ((second.heap.slots ⟨2⟩).lookup (canonical name)).or (second.heap.seen ⟨0⟩ name) :=
    hsome 1 _ _ hone
  obtain ⟨hcontrol, -, -, -, hrecords, ⟨p, declared, ⟨hattached, hnearest⟩, hparent, hdeclared⟩,
    hkept, -⟩ := hall _ _ hboth
  have hentries : Records ["a", "b"] [.block b, .bool true]
      (((second.run rt 8).step rt).heap.slots ⟨2⟩) := hrecords
  obtain ⟨_, _, hslots, ⟨id, rfl⟩, hrest⟩ := hfirst.cons_inv
  rw [hrest.nil_inv] at hslots
  obtain ⟨_, _, hresult, ⟨id', rfl⟩, hrest⟩ := hentries.cons_inv
  obtain ⟨_, _, rfl, rfl, hlast⟩ := hrest.cons_inv
  rw [hlast.nil_inv] at hresult
  refine ⟨second, _, ⟨hone, ⟨id, ?_⟩, ?_, ?_⟩, hboth, hcontrol, ⟨id', hresult⟩,
    ⟨hparent.trans (congrArg some (hnearest ⟨0⟩ .refl rfl)), hdeclared.trans hattached⟩, hkept⟩
  · rw [hseen "a" ⟨rfl, by decide⟩, hslots]
    rfl
  · rw [hseen "b" ⟨rfl, by decide⟩, hslots]
    rfl
  · rw [hseen "y" ⟨rfl, by decide⟩, hslots]
    rfl

end Machine

/-! Cells that hold nothing but lists and nil can be compared. -/

def Value.plain? : Value → Option (Option ListId)
  | .nil => some none
  | .list l => some (some l)
  | _ => none

/-- A cell, with lists and nil for all that its slots hold. -/
structure Outline where
  slots : List (String × Option (Option ListId))
  links : Option DictId × Bool × Option DictId
  scope : Option DictId
  target : Option DictId
  labels : Option String × Option String
deriving DecidableEq

def DictCell.outline (c : DictCell) : Outline where
  slots := c.slots.toList.map fun x => (x.1, x.2.plain?)
  links := (c.parent, c.declared, c.caller)
  scope := c.scope
  target := c.target
  labels := (c.name, c.tag)

theorem eq_of_plain? (hplain : ∀ x ∈ xs, x.2.plain?.isSome)
    (hsame : ys.map (fun y => (y.1, y.2.plain?)) = xs.map fun x => (x.1, x.2.plain?)) :
    ys = xs := by
  have hvalue : ∀ {v w : Value}, v.plain?.isSome → w.plain? = v.plain? → w = v := by
    intro v w hv hw
    cases v with
    | nil | list => cases w <;> simp_all [Value.plain?]
    | _ => cases hv
  induction xs generalizing ys with
  | nil => exact List.map_eq_nil_iff.mp hsame
  | cons x xs ih =>
    obtain ⟨y, ys', rfl, hhead, htail⟩ := List.map_eq_cons_iff.mp hsame
    obtain ⟨hname, hsame⟩ := Prod.mk.inj hhead
    rw [ih (fun z hz => hplain z (List.mem_cons_of_mem _ hz)) htail,
      Prod.ext hname (hvalue (hplain x List.mem_cons_self) hsame)]

theorem DictCell.eq_of_outline {c c' : DictCell}
    (hsame : c.outline.slots.all (·.2.isSome) = true ∧ c'.outline = c.outline) : c' = c := by
  obtain ⟨⟨xs, hxs⟩, parent, declared, caller, scope, target, name, tag⟩ := c
  obtain ⟨⟨ys, hys⟩, parent', declared', caller', scope', target', name', tag'⟩ := c'
  simp only [outline, Outline.mk.injEq, Prod.mk.injEq] at hsame
  obtain ⟨hplain, hslots, ⟨rfl, rfl, rfl⟩, rfl, rfl, rfl, rfl⟩ := hsame
  obtain rfl := eq_of_plain? (by simpa using hplain) hslots
  rfl

namespace Machine

def literal? (m : Machine) : Option DictId :=
  match m.control with
  | .eval (.dict literal) _ => some literal
  | _ => none

end Machine

/-- `[do [def {x = 1}] {a = [def env :parent nil] b = [? :x]}]` -/
def Script.relinking : List Token :=
  let a := list [[.sym "def"], [.sym "env"], [.mark .quote, .sym "parent"], [.null]]
  let b := list [[.sym "?"], [.mark .quote, .sym "x"]]
  list [[.sym "do"], list [[.sym "def"], Script.dict [("x", [.num (.nat 1)])]],
    Script.dict [("a", a), ("b", b)]]

/-- The first entry takes the parent of the view away, in which the entries are evaluated. Neither
entry writes to the new dictionary or to the literal, and still the second one does not see the `x`
of the environment. -/
theorem Machine.literal_relinked :
    let rt := (Interpreter.standard 100).runtime
    let m := Script.start (Interpreter.standard 100) Script.relinking
    let dict : DictId := ⟨24⟩
    let view : DictId := ⟨25⟩
    let literal : DictId := ⟨21⟩
    ((m.run rt 7).literal? = some literal ∧ (m.run rt 7).scope? = some ⟨0⟩ ∧
        (m.run rt 7).heap.owner literal = literal) ∧
      ((m.run rt 8).scope? = some view ∧ (m.run rt 15).heap.cell dict = (m.run rt 8).heap.cell dict ∧
        (m.run rt 15).heap.cell literal = (m.run rt 8).heap.cell literal) ∧
      ((m.run rt 16).scope? = some view ∧ (m.run rt 16).heap.holds view "x" = false ∧
        (m.run rt 16).heap.find ⟨0⟩ "x" = some ⟨0⟩ ∧ (m.run rt 16).heap.find view "x" = none) ∧
      ((m.run rt 19).heap.cell dict = (m.run rt 16).heap.cell dict ∧
        (m.run rt 19).heap.cell literal = (m.run rt 16).heap.cell literal) ∧
      (m.run rt 21).result?.isSome ∧ (m.run rt 21).heap.names dict = ["a", "b"] := by
  intro rt m dict view literal
  have hcells : ∀ d ∈ [dict, literal], ∀ x ∈ [(8, 15), (16, 19)],
      ((m.run rt x.1).heap.cell d).outline.slots.all (·.2.isSome) = true ∧
        ((m.run rt x.2).heap.cell d).outline = ((m.run rt x.1).heap.cell d).outline := by
    decide +kernel
  have hkept : ∀ d ∈ [dict, literal], ∀ x ∈ [(8, 15), (16, 19)],
      (m.run rt x.2).heap.cell d = (m.run rt x.1).heap.cell d :=
    fun d hd x hx => DictCell.eq_of_outline (hcells d hd x hx)
  have hsees : ((m.run rt 7).literal? = some literal ∧ (m.run rt 7).scope? = some ⟨0⟩ ∧
        (m.run rt 7).heap.owner literal = literal) ∧
      (m.run rt 8).scope? = some view ∧
      ((m.run rt 16).scope? = some view ∧ (m.run rt 16).heap.holds view "x" = false ∧
        (m.run rt 16).heap.find ⟨0⟩ "x" = some ⟨0⟩ ∧ (m.run rt 16).heap.find view "x" = none) ∧
      (m.run rt 21).result?.isSome ∧ (m.run rt 21).heap.names dict = ["a", "b"] := by
    decide +kernel
  obtain ⟨hbefore, hfirst, hsecond, hafter⟩ := hsees
  refine ⟨hbefore, ⟨hfirst, ?_, ?_⟩, hsecond, ⟨?_, ?_⟩, hafter⟩
  · exact hkept dict (by simp) (8, 15) (by simp)
  · exact hkept literal (by simp) (8, 15) (by simp)
  · exact hkept dict (by simp) (16, 19) (by simp)
  · exact hkept literal (by simp) (16, 19) (by simp)

end DictScript
