import DictScript.Proofs.Actions.Balance
import DictScript.Proofs.Frozen.Growth

/-!
What an outer frame binds stays bound as it is, and no frame further in can shadow it: the frames of
the stack lie still under a whole evaluation, since each piece of it writes to a frame of its own
that is not on the stack yet.
-/
namespace DictScript

namespace Heap
variable {h k m : Heap} {own own' : Option DictId} {d frame : DictId}

structure Spares (own : Option DictId) (h k : Heap) : Prop where
  size : h.dicts.size ≤ k.dicts.size
  cell (d : DictId) : h.Allocated (.dict d) → own ≠ some d → k.cell d = h.cell d
  view (d : DictId) : h.Allocated (.dict d) → own = some d → h.isView d = false →
    k.isView d = false

theorem Spares.refl (own : Option DictId) (h : Heap) : h.Spares own h :=
  ⟨Nat.le_refl _, fun _ _ _ => rfl, fun _ _ _ hv => hv⟩

theorem Spares.allocated (hk : h.Spares own k) (hd : h.Allocated (.dict d)) :
    k.Allocated (.dict d) := Nat.lt_of_lt_of_le hd hk.size

theorem Spares.isView (hk : h.Spares own k) (hd : h.Allocated (.dict d))
    (hv : h.isView d = false) : k.isView d = false := by
  by_cases hown : own = some d
  · exact hk.view d hd hown hv
  · rw [Heap.isView, hk.cell d hd hown]
    exact hv

/-- The second writer has the same dictionary or one that was not there yet. -/
theorem Spares.trans (hk : h.Spares own k) (hm : k.Spares own' m)
    (hown : ∀ d, own' = some d → own = some d ∨ ¬ h.Allocated (.dict d)) : h.Spares own m where
  size := Nat.le_trans hk.size hm.size
  cell d hd hne := by
    have hne' : own' ≠ some d := fun heq => (hown d heq).elim hne (fun hno => hno hd)
    rw [hm.cell d (hk.allocated hd) hne', hk.cell d hd hne]
  view d hd _ hv := hm.isView (hk.allocated hd) (hk.isView hd hv)

theorem spares_newDict (h : Heap) (own : Option DictId) : h.Spares own (h.newDict {}).1 where
  size := by simp [newDict]
  cell d hd _ := (grown_newDict h {}).cell d hd (by simp)
  view d hd _ hv := by
    rw [isView, (grown_newDict h {}).cell d hd (by simp)]
    exact hv

theorem spares_put (hd : h.Allocated (.dict d)) (hv : h.isView d = false) (name : String)
    (v : Value) : h.Spares (some d) (h.put d name v) := by
  have howner : h.owner d = d := by
    rw [isView, Option.isSome_eq_false_iff, Option.isNone_iff_eq_none] at hv
    rw [owner, hv]
    rfl
  rw [put, howner]
  refine ⟨by simp [modifyCell], fun e he hne => ?_, fun e he heq hview => ?_⟩
  · exact (grownBut_modifyCell hd).cell e he (by simpa using hne)
  · cases heq
    rw [isView, cell_modifyCell hd, if_pos rfl]
    exact hview

end Heap

def FrameStack.Outermost (s : FrameStack) (h : Heap) (name : String) (d : DictId) : Prop :=
  h.holds d name = true ∧
    ∃ outer inner, s.frames = outer ++ d :: inner ∧ ∀ o ∈ outer, h.holds o name = false

namespace Action
variable {C α β : Type}

def Implementation.Confined : Implementation C → Prop
  | .native run => ∀ (c : C) (frame : DictId) (h : Heap), h.Allocated (.dict frame) →
    h.isView frame = false → h.Spares (some frame) (run c frame h).2.2
  | .body _ => True

namespace World

def Confined (w : World C) : Prop :=
  ∀ name, ∀ d ∈ w.registry.definitions name, d.implementation.Confined

structure Spares (own : Option DictId) (w v : World C) : Prop where
  confined : w.Confined → v.Confined
  stack : v.stack = w.stack
  heap : w.heap.Spares own v.heap

variable {w v u : World C} {own own' : Option DictId}

theorem Spares.refl (own : Option DictId) (w : World C) : w.Spares own w :=
  ⟨fun h => h, rfl, .refl own w.heap⟩

theorem Spares.trans (hv : w.Spares own v) (hu : v.Spares own' u)
    (hown : ∀ d, own' = some d → own = some d ∨ ¬ w.heap.Allocated (.dict d)) : w.Spares own u :=
  ⟨fun hw => hu.confined (hv.confined hw), hu.stack.trans hv.stack, hv.heap.trans hu.heap hown⟩

theorem spares_opened (w : World C) (own : Option DictId) : w.Spares own w.opened :=
  ⟨fun h => h, rfl, Heap.spares_newDict w.heap own⟩

theorem not_allocated_nextFrame (w : World C) : ¬ w.heap.Allocated (.dict w.nextFrame) :=
  Nat.lt_irrefl _

theorem allocated_opened (w : World C) : w.opened.heap.Allocated (.dict w.nextFrame) := by
  simp [Heap.Allocated, opened, nextFrame, Heap.newDict]

theorem isView_opened (w : World C) : w.opened.heap.isView w.nextFrame = false := by
  simp [Heap.isView, opened, nextFrame, Heap.cell_newDict]

theorem spares_bound {frame : DictId} (hf : w.heap.Allocated (.dict frame))
    (hv : w.heap.isView frame = false) (name : String) (x : Value) :
    w.Spares (some frame) (w.bound frame name x) :=
  ⟨fun h => h, rfl, Heap.spares_put hf hv name x⟩

theorem spares_defined (w : World C) (name : String) (required : List String)
    (exprs : List Value) : w.Spares own (w.defined name ⟨required, .body exprs⟩) where
  confined hw n d hd := by
    rw [defined, Registry.definitions_add, List.mem_append] at hd
    rcases hd with hd | hd
    · exact hw n d hd
    · split at hd
      · cases List.mem_singleton.mp hd
        trivial
      · cases hd
  stack := rfl
  heap := .refl _ _

structure Over (base w : World C) : Prop where
  confined : w.Confined
  heap : base.heap.Spares none w.heap
  stack : base.stack.frames <+: w.stack.frames

theorem Over.of_spares {base : World C} (hw : base.Over w) (hv : w.Spares own v)
    (hown : ∀ d, own = some d → ¬ base.heap.Allocated (.dict d)) : base.Over v where
  confined := hv.confined hw.confined
  heap := hw.heap.trans hv.heap fun d hd => .inr (hown d hd)
  stack := hv.stack ▸ hw.stack

theorem Over.pushed {base : World C} (hw : base.Over w) (frame : DictId) :
    base.Over (w.pushed frame) :=
  ⟨hw.confined, hw.heap, hw.stack.trans (List.prefix_append _ _)⟩

end World

def Task.own : Task C α → Option DictId
  | .slots frame _ _ | .dispatch frame _ _ | .implement frame _ => some frame
  | _ => none

def Task.Confined : Task C α → Prop
  | .dispatch _ _ ds => ∀ d ∈ ds, d.implementation.Confined
  | .implement _ i => i.Confined
  | _ => True

structure Task.Over (base : World C) (t : Task C α) (w : World C) : Prop where
  world : base.Over w
  confined : t.Confined
  newer (d : DictId) : t.own = some d → ¬ base.heap.Allocated (.dict d) ∧
    w.heap.Allocated (.dict d) ∧ w.heap.isView d = false

open World

section
variable {base w v : World C} {own : Option DictId} {u : Task C β} {frame : DictId}
  {next : β → World C → Plan C α}

def KeepsOver (base : World C) (own : Option DictId) (w : World C) (p : Plan C α) : Prop :=
  p.Keeps (Task.Over base) (fun t v v' => v.Spares t.own v') (w.Spares own)

theorem keepsOver_start (hw : base.Over w)
    (hown : ∀ d, own = some d → ¬ base.heap.Allocated (.dict d)) (hv : w.Spares own v)
    (hu : u.Confined)
    (hnewer : ∀ d, u.own = some d → (own = some d ∨ ¬ w.heap.Allocated (.dict d)) ∧
      v.heap.Allocated (.dict d) ∧ v.heap.isView d = false)
    (hnext : ∀ v', w.Spares own v' → v.Spares u.own v' → ∀ b, KeepsOver base own w (next b v')) :
    KeepsOver base own w (.start u v id next) := by
  refine ⟨⟨hw.of_spares hv hown, hu, fun d hd => ⟨?_, (hnewer d hd).2⟩⟩, fun v' hv' => ?_⟩
  · exact (hnewer d hd).1.elim (hown d) fun hno hd => hno (hw.heap.allocated hd)
  · have hall := hv.trans hv' fun d hd => (hnewer d hd).1
    exact ⟨hall, hnext v' hall hv'⟩

/-- A piece that writes to nothing may start anywhere. -/
theorem keepsOver_free (hw : base.Over w)
    (hown : ∀ d, own = some d → ¬ base.heap.Allocated (.dict d)) (hv : w.Spares own v)
    (hu : u.Confined) (hfree : u.own = none)
    (hnext : ∀ v', w.Spares own v' → ∀ b, KeepsOver base own w (next b v')) :
    KeepsOver base own w (.start u v id next) :=
  keepsOver_start hw hown hv hu (by simp [hfree]) fun v' hv' _ => hnext v' hv'

theorem keepsOver_within {last : Value} {exprs : List Value} {next : Value → World C → Plan C α}
    (hw : base.Over w) (hown : ∀ d, own = some d → ¬ base.heap.Allocated (.dict d))
    (hv : w.Spares own v)
    (hnext : ∀ v', w.Spares own v' → ∀ b, KeepsOver base own w (next b v')) :
    KeepsOver base own w (.start (.body last exprs) (v.pushed frame) .popped next) := by
  refine ⟨⟨(hw.of_spares hv hown).pushed frame, trivial, by simp [Task.own]⟩, fun v' hv' => ?_⟩
  have hpopped : w.Spares own v'.popped := by
    refine hv.trans ⟨hv'.confined, ?_, hv'.heap⟩ (by simp [Task.own])
    exact (congrArg FrameStack.pop hv'.stack).trans (v.stack.pop_push frame)
  exact ⟨hpopped, hnext _ hpopped⟩

end

theorem keepsOver_plan {base w : World C} {t : Task C α} (ht : t.Over base w) :
    KeepsOver base t.own w (t.plan w) := by
  have hown := fun d hd => (ht.newer d hd).1
  cases t with
  | eval e =>
    cases e with
    | list l => exact keepsOver_free ht.world hown (.refl _ w) trivial rfl fun v hv _ => hv
    | _ => exact .refl _ w
  | list l =>
    rw [Task.plan]
    split
    · exact .refl _ w
    · refine keepsOver_start ht.world hown (spares_opened w _) trivial ?_ fun v hv _ _ =>
        keepsOver_within ht.world hown hv fun v' hv' _ => hv'
      rintro _ ⟨⟩
      exact ⟨.inr w.not_allocated_nextFrame, w.allocated_opened, w.isView_opened⟩
    · split
      · exact .refl _ w
      · exact .refl _ w
      · exact spares_defined w _ _ _
    · exact keepsOver_free ht.world hown (.refl _ w) trivial rfl fun v hv _ => hv
    · exact keepsOver_free ht.world hown (spares_opened w _) trivial rfl fun v hv _ => hv
    · exact .refl _ w
  | slots frame source names =>
    cases names with
    | nil => exact .refl _ w
    | cons name names =>
      obtain ⟨-, hframe, hview⟩ := ht.newer frame rfl
      refine keepsOver_free ht.world hown (.refl _ w) trivial rfl fun v hv b => ?_
      have hframe' := hv.heap.allocated hframe
      have hput := spares_bound hframe' (hv.heap.isView hframe hview) name b
      refine keepsOver_start ht.world hown (hv.trans hput fun d hd => .inl hd) trivial ?_
        fun v' hv' _ _ => hv'
      rintro _ ⟨⟩
      exact ⟨.inl rfl, hput.heap.allocated hframe',
        hput.heap.isView hframe' (hv.heap.isView hframe hview)⟩
  | body last exprs =>
    cases exprs with
    | nil => exact .refl _ w
    | cons e es =>
      exact keepsOver_free ht.world hown (.refl _ w) trivial rfl fun v hv b =>
        keepsOver_free ht.world hown hv trivial rfl fun v' hv' _ => hv'
  | call name args =>
    refine keepsOver_start ht.world hown (spares_opened w _) trivial ?_ fun v hv hslots _ =>
      keepsOver_start ht.world hown hv (hv.confined ht.world.confined name) ?_
        fun v' hv' _ _ => hv'
    · rintro _ ⟨⟩
      exact ⟨.inr w.not_allocated_nextFrame, w.allocated_opened, w.isView_opened⟩
    · rintro _ ⟨⟩
      exact ⟨.inr w.not_allocated_nextFrame, hslots.heap.allocated w.allocated_opened,
        hslots.heap.isView w.allocated_opened w.isView_opened⟩
  | dispatch frame last definitions =>
    cases definitions with
    | nil => exact .refl _ w
    | cons d ds =>
      obtain ⟨hd, hds⟩ := List.forall_mem_cons.mp ht.confined
      obtain ⟨-, hframe, hview⟩ := ht.newer frame rfl
      rw [Task.plan]
      split
      · refine keepsOver_start ht.world hown (.refl _ w) hd ?_ fun v hv _ b =>
          keepsOver_start ht.world hown hv hds ?_ fun v' hv' _ _ => hv'
        · rintro _ ⟨⟩
          exact ⟨.inl rfl, hframe, hview⟩
        · rintro _ ⟨⟩
          exact ⟨.inl rfl, hv.heap.allocated hframe, hv.heap.isView hframe hview⟩
      · refine keepsOver_start ht.world hown (.refl _ w) hds ?_ fun v hv _ _ => hv
        rintro _ ⟨⟩
        exact ⟨.inl rfl, hframe, hview⟩
  | implement frame implementation =>
    cases implementation with
    | native run =>
      obtain ⟨-, hframe, hview⟩ := ht.newer frame rfl
      exact ⟨fun hw => hw, rfl, ht.confined _ frame _ hframe hview⟩
    | body exprs => exact keepsOver_within ht.world hown (.refl _ w) fun v hv _ => hv

def cover (base : World C) : Contract C where
  pre t w := t.Over base w
  post t w v := w.Spares t.own v
  out _ := .refl _ _
  plan := keepsOver_plan

/-! Reading. -/

/-- The frames lie under the second stack, and each has what it had. A link is to be had as long as
the dictionary that it leads to is there, which no frame decides; but it is stored as it was. -/
structure World.KeepsFrames (w v : World C) : Prop where
  stack : w.stack.frames <+: v.stack.frames
  cell (d : DictId) : d ∈ w.stack.frames → v.heap.cell d = w.heap.cell d
  binding (d : DictId) (name n : String) : d ∈ w.stack.frames → Key.of name = .slot n →
    v.heap.holds d name = w.heap.holds d name ∧ v.heap.get d name = w.heap.get d name

def World.FramesAllocated (w : World C) : Prop := ∀ d ∈ w.stack.frames,
  w.heap.Allocated (.dict d) ∧ w.heap.Allocated (.dict (w.heap.owner d))

theorem World.Over.keepsFrames {w v : World C} (hv : w.Over v) (hs : w.FramesAllocated) :
    w.KeepsFrames v := by
  have hcell : ∀ d ∈ w.stack.frames, v.heap.cell d = w.heap.cell d := fun d hd =>
    hv.heap.cell d (hs d hd).1 (by simp)
  refine ⟨hv.stack, hcell, fun d name n hd hn => ?_⟩
  have howner : v.heap.owner d = w.heap.owner d := by rw [Heap.owner, hcell d hd, ← Heap.owner]
  have hslots : v.heap.slots d = w.heap.slots d := by
    rw [Heap.slots, howner, hv.heap.cell _ (hs d hd).2 (by simp), ← Heap.slots]
  simp [Heap.holds, Heap.get, hn, hslots]

inductive Task.Reads (h : Heap) (name : String) : Task C Value → Prop where
  | symbol : Reads h name (.eval (.sym name))
  | get {l : ListId} {x : Value} (hitems : h.items l = [.sym "get", x])
      (hname : nameOf x = .ok name) : Reads h name (.list l)

theorem read_of_outermost {s : FrameStack} {v : World C} {name : String} {d : DictId}
    (hs : s.frames <+: v.stack.frames) (hd : s.Outermost v.heap name d) :
    v.read name = v.heap.get d name := by
  obtain ⟨hholds, outer, inner, hframes, houter⟩ := hd
  obtain ⟨further, hfurther⟩ := hs
  have hfind : v.stack.frames.find? (fun d => v.heap.holds d name) = some d := by
    rw [List.find?_eq_some_iff_append]
    refine ⟨hholds, outer, inner ++ further, ?_, fun o ho => by simp [houter o ho]⟩
    rw [← hfurther, hframes, List.append_assoc, List.cons_append]
  rw [World.read, FrameStack.get?, hfind]
  rfl

theorem run_of_reads {u : Task C Value} {v : World C} {name : String}
    (hu : u.Reads v.heap name) (fuel : Nat) :
    (u.run (fuel + 1)).run v = (.ok (v.read name), v) := by
  rw [u.run_succ]
  cases hu with
  | symbol => rfl
  | get hitems hname =>
    simp only [Task.plan, hitems, hname]
    rfl

/-- While an evaluation goes on and when it is over, at whatever depth and however far it gets, the
frames that were on the stack lie where they were and keep their bindings, and whoever reads a name
that one of them holds gets it from the outermost of these. -/
theorem never_shadowed (w : World C) (hw : w.Confined) (hs : w.FramesAllocated) (fuel : Nat)
    (e : Value) :
    w.KeepsFrames ((Act.eval fuel e).run w).2 ∧
    (∀ (β : Type) (u : Task C β) (fuel' : Nat) (v : World C),
      u.Passes fuel' v fuel (.eval e) w → w.KeepsFrames v) ∧
    ∀ (u : Task C Value) (fuel' : Nat) (v : World C) (name : String) (d : DictId),
      u.Passes (fuel' + 1) v fuel (.eval e) w → u.Reads v.heap name →
      w.stack.Outermost v.heap name d →
      (u.run (fuel' + 1)).run v = (.ok (v.heap.get d name), v) := by
  have hover : w.Over w := ⟨hw, .refl none w.heap, List.prefix_refl _⟩
  have hpre : (Task.eval e : Task C Value).Over w w := ⟨hover, trivial, by simp [Task.own]⟩
  refine ⟨?_, fun β u fuel' v hu => ?_, fun u fuel' v name d hu hreads hd => ?_⟩
  · exact (hover.of_spares ((cover w).run fuel hpre) (by simp [Task.own])).keepsFrames hs
  · exact ((cover w).pre_of_passes fuel hu hpre).world.keepsFrames hs
  · have hstack := ((cover w).pre_of_passes fuel hu hpre).world.stack
    rw [run_of_reads hreads, read_of_outermost hstack hd]

/-- A frame binds x, and a list `[let {x = …} x]` is about to bind it again. A host action writes to
its frame. -/
def rebinding : World Unit where
  registry := [("mark", [⟨[], .native fun c frame h => (.ok .nil, c, h.put frame "x" .nil)⟩])]
  stack := ⟨[⟨0⟩]⟩
  context := ()
  heap :=
    { dicts := #[{ slots := Slots.empty.put "x" (.str "outer") },
        { slots := Slots.empty.put "x" (.str "inner") }]
      lists := #[#[.sym "let", .dict ⟨1⟩, .sym "x"]] }

theorem confined_rebinding : rebinding.Confined := by
  intro name d hd
  rw [Registry.definitions, rebinding, lookup_cons_eq] at hd
  split at hd
  · cases List.mem_singleton.mp hd
    exact fun c frame h hframe hview => Heap.spares_put hframe hview "x" .nil
  · cases hd

theorem never_shadowed_rebinding : ∃ v : World Unit,
    (Task.eval (.sym "x")).Passes 2 v 5 (.eval (.list ⟨0⟩)) rebinding ∧
      v.stack.frames = [⟨0⟩, ⟨2⟩] ∧ v.heap.get ⟨2⟩ "x" = .str "inner" ∧
      ((Task.eval (.sym "x")).run 2).run v = (.ok (.str "outer"), v) := by
  have hs : rebinding.FramesAllocated := by
    intro d hd
    cases List.mem_singleton.mp hd
    decide
  let filled := ((Task.slots ⟨2⟩ ⟨1⟩ ["x"]).run 3).run rebinding.opened
  have hpasses : (Task.eval (.sym "x")).Passes 2 (filled.2.pushed ⟨2⟩) 5 (.eval (.list ⟨0⟩))
      rebinding :=
    .inner .here (.inner (.later rfl .here) (.inner .here .here))
  refine ⟨_, hpasses, rfl, rfl, ?_⟩
  exact (never_shadowed rebinding confined_rebinding hs 5 (.list ⟨0⟩)).2.2 _ 1 _ "x" ⟨0⟩ hpasses
    .symbol ⟨rfl, [], [], rfl, by simp⟩

end Action
end DictScript
