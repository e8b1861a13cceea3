import DictScript.Proofs.Calls.Evaluation
import DictScript.Proofs.Calls.Parameters
import DictScript.Proofs.Calls.Retention
import DictScript.Proofs.Calls.Scope
import DictScript.Proofs.Dictionaries.Updates

/-!
The arguments of a call, for any expressions, which may do anything before the next is evaluated.
The frame they are collected in is new, so nothing that an argument can get hold of leads to it.
-/
namespace DictScript
open Heap
variable {rt : Runtime} {e frame : DictId} {depth : Nat} {h g k : Heap} {S T K : Set Ref}
variable {v : Value} {args vs ws xs : List Value} {b : Block} {s : Slots} {l : ListId} {name p : String}
variable {params : List String} {stack : List Frame} {m m₁ : Machine} {x : Move × Heap}
variable {log : List String} {pins : List (List Value)}

namespace Heap

structure Collects (K S : Set Ref) (e frame : DictId) (s : Slots) (h : Heap) : Prop where
  region : h.Region S
  host : K ⊆ S
  site : .dict e ∈ S
  made : h.Allocated (.dict frame)
  outside : .dict frame ∉ S
  target : (h.cell frame).target = none
  slots : (h.cell frame).slots = s

structure Gathers (S : Set Ref) (l : ListId) (xs : List Value) (h : Heap) : Prop where
  made : h.Allocated (.list l)
  outside : .list l ∉ S
  items : h.items l = xs

theorem Collects.after (hc : Collects K S e frame s h) (hedits : Edits (h, S) (k, T)) :
    Collects K T e frame s k := by
  have hcontained := hedits.contained hc.region
  have hcell := hcontained.cell frame hc.made hc.outside
  exact
    { region := hedits.region hc.region
      host := hc.host.trans hcontained.sub
      site := hcontained.sub hc.site
      made := hcontained.grow _ hc.made
      outside := hcontained.outside hc.made hc.outside
      target := hcell ▸ hc.target
      slots := hcell ▸ hc.slots }

theorem Gathers.after (hl : Gathers S l xs h) (hS : h.Region S) (hedits : Edits (h, S) (k, T)) :
    Gathers T l xs k := by
  have hcontained := hedits.contained hS
  exact
    { made := hcontained.grow _ hl.made
      outside := hcontained.outside hl.made hl.outside
      items := (hcontained.items l hl.made hl.outside).trans hl.items }

theorem Collects.slots_eq (hc : Collects K S e frame s h) : h.slots frame = s.toList := by
  rw [Heap.slots, owner, hc.target, Option.getD_none, hc.slots]

/-- The frame binds one name more. -/
theorem Collects.define (hc : Collects K S e frame s h) (hname : ¬ IsReserved name) (v : Value) :
    ∃ k, h.define frame name v = (.ok (), k) ∧
      Collects K S e frame (s.put (canonical name) v) k ∧ k.lists = h.lists ∧
      ∀ r, k.Allocated r ↔ h.Allocated r := by
  have howner : h.owner frame = frame := by rw [owner, hc.target, Option.getD_none]
  let k := h.withSlots frame fun s => s.put (canonical name) v
  have hdefine : h.define frame name v = (.ok (), k) := by
    rw [define_eq_withSlots h frame hname v, howner]
  have hcell : ∀ d, k.cell d = if d = frame then
      { h.cell frame with slots := (h.cell frame).slots.put (canonical name) v } else h.cell d :=
    fun d => cell_modifyCell hc.made
  have hself := (hcell frame).trans (if_pos rfl)
  have hmade : ∀ r, k.Allocated r ↔ h.Allocated r := fun r => allocated_modifyCell frame _
  have htidy : k.Tidy := by
    refine hc.region.tidy.modifyCell hc.made rfl (fun hview => absurd hc.target hview) ?_
    intro x hx
    cases mem_of_mem_putSlot hx with
    | inl hold => exact hc.region.tidy.ordinary frame x hold
    | inr hnew =>
      rw [hnew]
      exact Key.of_eq_slot (Key.of_not_reserved hname)
  have hregion : k.Region S := by
    refine hc.region.congr htidy (fun r hr => (hmade r).mpr (hc.region.allocated r hr))
      (fun d hd => ?_) (fun _ _ => rfl) fun _ _ => rfl
    rw [hcell, if_neg]
    rintro rfl
    exact hc.outside hd
  refine ⟨k, hdefine, ⟨hregion, hc.host, hc.site, (hmade _).mpr hc.made, hc.outside, ?_, ?_⟩, rfl,
    hmade⟩
  · rw [hself]
    exact hc.target
  · rw [hself, ← hc.slots]

/-- A change of lists that are not in the region. -/
theorem Collects.lists (hc : Collects K S e frame s h) (hdicts : k.dicts = h.dicts)
    (hnatives : k.natives = h.natives) (hmade : ∀ r, h.Allocated r → k.Allocated r)
    (hitems : ∀ l, .list l ∈ S → k.items l = h.items l) : Collects K S e frame s k where
  region := hc.region.congr (hc.region.tidy.congr hdicts)
    (fun r hr => hmade r (hc.region.allocated r hr)) (fun _ _ => cell_congr hdicts) hitems
    fun n _ => by rw [native?, native?, hnatives]
  host := hc.host
  site := hc.site
  made := hmade _ hc.made
  outside := hc.outside
  target := cell_congr hdicts ▸ hc.target
  slots := cell_congr hdicts ▸ hc.slots

theorem Collects.pushItem (hc : Collects K S e frame s h) (hl : Gathers S l xs h) (v : Value) :
    Collects K S e frame s (h.pushItem l v) ∧ Gathers S l (xs ++ [v]) (h.pushItem l v) := by
  refine ⟨hc.lists rfl rfl (fun r => (allocated_pushItem l v).mpr) fun l' hl' => ?_,
    (allocated_pushItem l v).mpr hl.made, hl.outside, ?_⟩
  · rw [items_pushItem hl.made, if_neg]
    rintro rfl
    exact hl.outside hl'
  · rw [items_pushItem hl.made, if_pos rfl, hl.items]

theorem Collects.newList (hc : Collects K S e frame s h) :
    Collects K S e frame s (h.newList []).1 ∧ Gathers S (h.newList []).2 [] (h.newList []).1 := by
  refine ⟨hc.lists rfl rfl (fun r hr => (allocated_newList []).mpr (.inr hr)) fun l hl => ?_,
    (allocated_newList []).mpr (.inl rfl), fun hl => ?_, ?_⟩
  · exact items_newList_of_allocated [] (hc.region.allocated _ hl)
  · exact Nat.lt_irrefl _ (hc.region.allocated _ hl)
  · exact items_newList_self h []

end Heap

/-! The evaluation of all arguments. -/

namespace Machine

def Invokes (rt : Runtime) (stack : List Frame) (depth : Nat) (e frame : DictId) (b : Block)
    (g : Heap) (m : Machine) : Prop :=
  ∃ log pins, m = after stack depth log pins (invoke rt depth e frame b [] g)

theorem evaluates_collectRest (hrt : rt.Tame K) (hc : Collects K S e frame s h)
    (hl : Gathers S l xs h) (hargs : ∀ a ∈ args, Has S a) (hname : ¬ IsReserved name)
    (log : List String) (pins : List (List Value)) :
    let m := after stack depth log pins (collectRest rt depth e b frame name l args h)
    Stops rt e stack args m ∨
    ∃ vs m', Evaluates rt e stack args vs m m' ∧
      ∃ g T, m'.Invokes rt stack depth e frame b g ∧
        Collects K T e frame (s.put (canonical name) (.list l)) g ∧ g.items l = xs ++ vs := by
  induction args generalizing h S xs log pins with
  | nil =>
    obtain ⟨k, hdefine, hc', hlists, -⟩ := hc.define hname (.list l)
    refine .inr ⟨[], _, .done, k, S, ⟨log, pins, ?_⟩, hc', ?_⟩
    · rw [collectRest, hdefine]
    · rw [items_congr hlists, hl.items, List.append_nil]
  | cons a args ih =>
    obtain ⟨ha, hargs⟩ := List.forall_mem_cons.mp hargs
    refine stops_or_evaluates (f := .remaining e b frame name l args) hrt hc.region hc.host hc.site
      ha rfl (fun _ _ _ => rfl) log pins fun T k v log pins hedits => ?_
    obtain ⟨hc', hl'⟩ := (hc.after hedits).pushItem (hl.after hc.region hedits) v
    refine (ih hc' hl' (fun a ha => (hargs a ha).mono hedits.sub) log pins).imp_right ?_
    rintro ⟨vs, m', hvs, g, T', hinvokes, hg, hitems⟩
    refine ⟨vs, m', hvs, g, T', hinvokes, hg, ?_⟩
    rw [hitems, List.append_assoc, List.singleton_append]

/-- Without a rest parameter there must not be more arguments than parameters. -/
theorem evaluates_bindArgs (hrt : rt.Tame K) (hc : Collects K S e frame s h)
    (hargs : ∀ a ∈ args, Has S a) (hparams : ∀ p ∈ params, ¬ IsReserved (paramName p))
    (hfits : (∀ p ∈ params, restName? p = none) → args.length ≤ params.length)
    (log : List String) (pins : List (List Value)) :
    let m := after stack depth log pins (bindArgs rt depth e b frame params args h)
    Stops rt e stack args m ∨
    ∃ vs m', Evaluates rt e stack args vs m m' ∧
      ∃ g T l, m'.Invokes rt stack depth e frame b g ∧
        Collects K T e frame (s.putAll (bindings l params vs)) g ∧
        ∀ ys, remaining? params vs = some ys → g.items l = ys ∧ ¬ h.Allocated (.list l) := by
  induction params generalizing args h S s log pins with
  | nil =>
    obtain rfl : args = [] := List.length_eq_zero_iff.mp (Nat.le_zero.mp (hfits nofun))
    exact .inr ⟨[], _, .done, h, S, default, ⟨log, pins, rfl⟩, hc, nofun⟩
  | cons p params ih =>
    obtain ⟨hp, hparams⟩ := List.forall_mem_cons.mp hparams
    cases hrest : restName? p with
    | some name =>
      rw [paramName_of_some hrest] at hp
      obtain ⟨hc', hl⟩ := hc.newList
      rw [bindArgs_rest hrest]
      refine (evaluates_collectRest hrt hc' hl hargs hp log pins).imp_right ?_
      rintro ⟨vs, m', hvs, g, T, hinvokes, hg, hitems⟩
      refine ⟨vs, m', hvs, g, T, (h.newList []).2, hinvokes, ?_, fun ys hys => ?_⟩
      · simp only [bindings, hrest]
        exact hg
      · simp only [remaining?, hrest, Option.some.injEq] at hys
        exact ⟨hys ▸ hitems, Nat.lt_irrefl _⟩
    | none =>
      rw [paramName_of_none hrest] at hp
      cases args with
      | nil =>
        rw [bindArgs_nil hrest]
        refine .inr ⟨[], _, .done, h, S, default, ⟨log, pins, rfl⟩, ?_, fun ys hys => ?_⟩
        · simp only [bindings, hrest]
          exact hc
        · simp only [remaining?, hrest, reduceCtorEq] at hys
      | cons a args =>
        obtain ⟨ha, hargs⟩ := List.forall_mem_cons.mp hargs
        rw [bindArgs_cons hrest]
        refine stops_or_evaluates hrt hc.region hc.host hc.site ha rfl (fun _ _ _ => rfl) log pins
          fun T k v log pins hedits => ?_
        obtain ⟨k', hdefine, hc', -, hmade⟩ := (hc.after hedits).define hp v
        have hfits' : (∀ q ∈ params, restName? q = none) → args.length ≤ params.length :=
          fun hall => Nat.le_of_succ_le_succ (hfits (List.forall_mem_cons.mpr ⟨hrest, hall⟩))
        simp only [Frame.resume, hdefine]
        refine (ih hc' (fun a ha => (hargs a ha).mono hedits.sub) hparams hfits' log pins).imp_right
          ?_
        rintro ⟨vs, m', hvs, g, T', l, hinvokes, hg, hlist⟩
        refine ⟨vs, m', hvs, g, T', l, hinvokes, ?_, fun ys hys => ?_⟩
        · simp only [bindings, hrest]
          exact hg
        · simp only [remaining?, hrest] at hys
          obtain ⟨hitems, hnew⟩ := hlist ys hys
          refine ⟨hitems, fun hold => hnew ((hmade _).mpr ?_)⟩
          exact (hedits.contained hc.region).grow _ hold

end Machine

/-! The frame of the body. -/

/-- The scope of a body is there, or a view that is made for it. -/
theorem lexicalScope_grows (e args : DictId) (b : Block) (h : Heap) :
    Grown h (lexicalScope e args b h).1 ∧ (lexicalScope e args b h).1.lists = h.lists := by
  unfold lexicalScope
  split
  · split
    · exact ⟨.of_same rfl rfl, rfl⟩
    · exact ⟨grown_newDict h _, rfl⟩
  · exact ⟨.of_same rfl rfl, rfl⟩

theorem Heap.slots_of_grown (hk : Grown h k) (hmade : h.Allocated (.dict frame))
    (htarget : (h.cell frame).target = none) : k.slots frame = h.slots frame := by
  have hcell := hk.cell frame hmade (by simp)
  rw [slots, slots, owner, owner, hcell, htarget, Option.getD_none, hcell]

/-- A block runs its body in a new frame, unless the limit is reached. -/
theorem invoke_eq (hslots : g.slots frame = s.toList) (hmade : g.Allocated (.dict frame))
    (htarget : (g.cell frame).target = none) (kept : List Value) :
    let x := lexicalScope e frame b g
    let y := x.1.newDict { parent := some x.2, scope := some x.2, caller := some e, name := b.name,
                           slots := bodySlots b s }
    invoke rt depth e frame b kept g =
      (if rt.maxDepth ≤ depth then .failIn y.1 y.2 (.exhausted rt.maxDepth)
      else .body b.body y.2
        [.application y.2 (.block b :: .dict frame :: .dict x.2 :: .dict y.2 :: kept)], y.1) := by
  have hgrows := (lexicalScope_grows e frame b g).1
  unfold invoke
  generalize lexicalScope e frame b g = x at hgrows
  obtain ⟨h₁, lexical⟩ := x
  simp only
  have hcopied : (h₁.frame lexical e b.name).1.slots frame = s.toList :=
    (slots_of_grown (hgrows.trans (grown_newDict h₁ _)) hmade htarget).trans hslots
  have hnew : ∀ c, (h₁.newDict c).2 = ⟨h₁.dicts.size⟩ := fun _ => rfl
  rw [hcopied, Heap.frame]
  simp only [hnew]
  rw [putAll_newDict rfl]
  cases hreceiver : b.receiver with
  | none =>
    simp only [bodySlots, hreceiver]
    split <;> rfl
  | some d =>
    simp only [put_newDict, bodySlots, hreceiver]
    split <;> rfl

namespace Machine

/-- The arguments of a call are there, `s` is what they bind, and the body of `b` comes next; at the
limit it is refused. The frame of the body is new and has all names of the arguments, but for `env`,
and for `self` if the block has a receiver. -/
structure Enters (rt : Runtime) (stack : List Frame) (depth : Nat) (h : Heap) (b : Block)
    (s : Slots) (frame : DictId) (m : Machine) : Prop where
  new : ¬ h.Allocated (.dict frame)
  arguments : m.heap.slots h.argsFrame = s.toList
  bound : ∀ name, name ≠ envName → ¬ (name = "self" ∧ b.receiver.isSome) →
    (m.heap.slots frame).lookup name = s.toList.lookup name
  body : depth < rt.maxDepth → ∃ kept,
    m.control = (Move.body b.body frame [.application frame kept]).control ∧
    m.stack = (Move.body b.body frame [.application frame kept]).frames ++ stack
  refused : rt.maxDepth ≤ depth →
    ∃ error, m.control = .raise error ∧ error.cause = .exhausted rt.maxDepth ∧ m.stack = stack

theorem Invokes.enters (hm : m.Invokes rt stack depth e h.argsFrame b g)
    (hc : Collects K S e h.argsFrame s g) :
    ∃ frame, m.Enters rt stack depth h b s frame ∧ ∀ l, m.heap.items l = g.items l := by
  obtain ⟨log, pins, rfl⟩ := hm
  have hgrows := lexicalScope_grows e h.argsFrame b g
  rw [invoke_eq hc.slots_eq hc.made hc.target]
  generalize lexicalScope e h.argsFrame b g = x at hgrows
  obtain ⟨h₁, lexical⟩ := x
  obtain ⟨hgrown, hlists⟩ := hgrows
  have hmade : h.dicts.size < h₁.dicts.size := Nat.lt_of_lt_of_le hc.made hgrown.dicts
  simp only
  set c : DictCell :=
    { parent := some lexical, scope := some lexical, caller := some e, name := b.name,
      slots := bodySlots b s } with hcell
  have hself : (h₁.newDict c).1.cell (h₁.newDict c).2 = c := by
    rw [cell_newDict]
    exact if_pos rfl
  have hargs : (h₁.newDict c).1.slots h.argsFrame = s.toList :=
    (slots_of_grown (hgrown.trans (grown_newDict h₁ c)) hc.made hc.target).trans hc.slots_eq
  have hframe : (h₁.newDict c).1.slots (h₁.newDict c).2 = (bodySlots b s).toList := by
    rw [Heap.slots, owner, hself]
    exact congrArg (fun c => c.slots.toList) hself
  refine ⟨(h₁.newDict c).2, ⟨?_, hargs, fun name henv hreceiver => ?_, fun hlt => ?_,
    fun hle => ?_⟩, fun l => items_congr hlists⟩
  · exact fun hold => Nat.lt_asymm hmade hold
  · refine (congrArg (List.lookup name) hframe).trans ?_
    rw [lookup_bodySlots henv, if_neg hreceiver]
  · rw [if_neg (Nat.not_le.mpr hlt)]
    exact ⟨_, rfl, rfl⟩
  · rw [if_pos hle]
    exact ⟨_, rfl, cause_raisedIn _ _ _, rfl⟩

end Machine

/-! Calls. -/

def Slots.BindsFixed (s : Slots) (b : Block) (vs : List Value) : Prop :=
  ∀ i p, b.params[i]? = some p → restName? p = none →
    s.toList.lookup (canonical p) = if i < b.fixedArity then vs[i]? else none

def Slots.BindsRest (s : Slots) (b : Block) (vs : List Value) (h k : Heap) : Prop :=
  ∀ p name, b.params[b.fixedArity]? = some p → restName? p = some name →
    (b.fixedArity ≤ vs.length → ∃ l, s.toList.lookup (canonical name) = some (.list l) ∧
      k.items l = vs.drop b.fixedArity ∧ ¬ h.Allocated (.list l)) ∧
    (vs.length < b.fixedArity → s.toList.lookup (canonical name) = none)

/-- The frame for the arguments is new. -/
theorem Heap.collects_withArgs (hS : h.Region S) (hK : K ⊆ S) (he : .dict e ∈ S) (b : Block) :
    Collects K S e h.argsFrame .empty (h.withArgs e b .empty) := by
  have hcell : ∀ d, (h.withArgs e b .empty).cell d = if d.index = h.dicts.size then
      { parent := some e, scope := some e, caller := some e, name := b.name } else h.cell d :=
    fun d => cell_newDict h _
  have hself := (hcell h.argsFrame).trans (if_pos rfl)
  have hmade : ∀ r, h.Allocated r → (h.withArgs e b .empty).Allocated r :=
    fun r hr => (allocated_newDict _).mpr (.inr hr)
  refine ⟨hS.congr (hS.tidy.newDict rfl nofun) (fun r hr => hmade r (hS.allocated r hr))
    (fun d hd => ?_) (fun _ _ => rfl) fun _ _ => rfl, hK, he, (allocated_newDict _).mpr (.inl rfl),
    fun hin => Nat.lt_irrefl _ (hS.allocated _ hin), ?_, ?_⟩
  · rw [hcell, if_neg (Nat.ne_of_lt (hS.allocated _ hd))]
  · rw [hself]
  · rw [hself]

namespace Machine

section
variable (hrt : rt.Tame K) (hS : h.Region S) (hK : K ⊆ S) (he : .dict e ∈ S)
variable (hparams : ∀ p ∈ b.params, ¬ IsReserved (paramName p))
variable (hdistinct : (b.params.map fun p => canonical (paramName p)).Nodup)
include hrt hS hK he hparams hdistinct

theorem evaluates_callBlock (hargs : ∀ a ∈ args, Has S a)
    (hfits : ¬ (b.fixedArity < args.length ∧ ¬ b.hasRest)) (stack : List Frame) (depth : Nat)
    (log : List String) (pins : List (List Value)) :
    let start := after stack depth log pins (callBlock rt depth e b args h)
    Stops rt e stack args start ∨
    ∃ vs m s frame, Evaluates rt e stack args vs start m ∧ m.Enters rt stack depth h b s frame ∧
      s.BindsFixed b vs ∧ s.BindsRest b vs h m.heap := by
  have hall : (∀ p ∈ b.params, restName? p = none) → args.length ≤ b.params.length := by
    intro hnone
    have hrest : ¬ b.hasRest := by simpa [BlockOf.hasRest] using hnone
    refine (Nat.le_of_not_lt fun hmany => hfits ⟨hmany, hrest⟩).trans ?_
    exact (List.takeWhile_prefix _).length_le
  have hc := collects_withArgs hS hK he b
  rw [callBlock, if_neg hfits]
  refine (evaluates_bindArgs hrt hc hargs hparams hall log pins).imp_right ?_
  rintro ⟨vs, m, hvs, g, T, l, hinvokes, hg, hlist⟩
  obtain ⟨frame, henters, hitems⟩ := hinvokes.enters hg
  have hlookup := lookup_putAll_bindings hdistinct l vs
  refine ⟨vs, m, _, frame, hvs, henters, fun i p hp hfixed => ?_, fun p name hp hname => ?_⟩
  · rw [hlookup]
    split
    · rename_i hi
      exact lookup_bindings_fixed hdistinct l vs hi hp
    · rename_i hi
      have hne : i ≠ fixedCount b.params := by
        rintro rfl
        simpa [hfixed] using restName?_of_fixedCount hp
      have hbehind := lookup_bindings_behind hdistinct l vs
        (Nat.lt_of_le_of_ne (Nat.le_of_not_lt hi) hne.symm) hp
      rwa [paramName_of_none hfixed] at hbehind
  · have hrest := (hlookup _).trans (lookup_bindings_rest hdistinct l vs hp hname)
    refine ⟨fun henough => ⟨l, hrest.trans (if_pos henough), ?_⟩, fun hfew => ?_⟩
    · obtain ⟨hcollected, hnew⟩ := hlist _ (remaining?_eq_some_drop hp henough)
      exact ⟨(hitems l).trans hcollected, hnew⟩
    · exact hrest.trans (if_neg (Nat.not_le.mpr hfew))

/-- A call with too many arguments is refused before anything else happens. Any other evaluates each
argument once, in order and in the environment of the call, unless one stops it; then the body comes
next, with the fixed parameters bound by position and those without an argument not bound. A host
that calls the block with values has these bound, whatever they are. In a heap that an interpreter
has got to, the region may be everything there is. -/
theorem call_arguments (depth : Nat) :
    (∀ args, b.fixedArity < args.length → ¬ b.hasRest → callBlock rt depth e b args h =
      (.failIn h e (.arity b.displayName b.fixedArity args.length), h)) ∧
    (∀ args stack log pins, (∀ a ∈ args, Has S a) →
      ¬ (b.fixedArity < args.length ∧ ¬ b.hasRest) →
      let start := after stack depth log pins (callBlock rt depth e b args h)
      Stops rt e stack args start ∨
      ∃ vs m s frame, Evaluates rt e stack args vs start m ∧ (∃ n, start.run rt n = m) ∧
        m.Enters rt stack depth h b s frame ∧ s.BindsFixed b vs) ∧
    (∀ ws stack log pins, (∀ w ∈ ws, Has S w) → ¬ (b.fixedArity < ws.length ∧ ¬ b.hasRest) →
      let start := after stack depth log pins ((Request.call e b ws).begin rt depth h)
      ∃ m s frame, Evaluates rt e stack (ws.map Value.quote) ws start m ∧
        (∃ n, start.run rt n = m) ∧ m.Enters rt stack depth h b s frame ∧
        s.BindsFixed b ws ∧ s.BindsRest b ws h m.heap) := by
  refine ⟨fun args hmany hrest => if_pos ⟨hmany, hrest⟩,
    fun args stack log pins hargs hfits => ?_, fun ws stack log pins hws hfits => ?_⟩
  · refine (evaluates_callBlock hrt hS hK he hparams hdistinct hargs hfits stack depth log
      pins).imp_right ?_
    rintro ⟨vs, m, s, frame, hvs, henters, hfixed, -⟩
    exact ⟨vs, m, s, frame, hvs, hvs.exists_run, henters, hfixed⟩
  · have hquotes : ∀ a ∈ ws.map Value.quote, Has S a := by
      intro a ha
      obtain ⟨w, hw, rfl⟩ := List.mem_map.mp ha
      exact hws w hw
    obtain hstops | ⟨vs, m, s, frame, hvs, henters, hfixed, hrest⟩ :=
      evaluates_callBlock hrt hS hK he hparams hdistinct hquotes (by rwa [List.length_map]) stack
        depth log pins
    · exact (not_stops_quotes hstops).elim
    · cases hvs.eq_of_quotes
      exact ⟨m, s, frame, hvs, hvs.exists_run, henters, hfixed, hrest⟩

/-- A rest parameter collects the arguments behind those of the fixed parameters, none if there are
just enough. When the fixed parameters do not all have an argument it is not bound, like them. -/
theorem call_rest (hargs : ∀ a ∈ args, Has S a) (hrest : b.hasRest)
    (hvs : Evaluates rt e stack args vs (after stack depth log pins (callBlock rt depth e b args h))
      m) : vs.length = args.length ∧
    ∃ s frame, m.Enters rt stack depth h b s frame ∧ s.BindsRest b vs h m.heap := by
  obtain hstops | ⟨ws, m', s, frame, hws, henters, -, hbinds⟩ :=
    evaluates_callBlock hrt hS hK he hparams hdistinct hargs (fun hmany => hmany.2 hrest) stack
      depth log pins
  · exact (hvs.not_stops hstops).elim
  · obtain ⟨rfl, rfl⟩ := hvs.unique hws
    exact ⟨hvs.length_eq, s, frame, henters, hbinds⟩

end

/-- The host calls `[x ...r | x]` with a symbol, a quote and the root environment. -/
theorem call_arguments_values :
    let i := Interpreter.standard 100
    let b : Block := { id := 0, name := none, params := ["x", "...r"], body := [.sym "x"],
                       env := ⟨0⟩, receiver := none }
    let ws : List Value := [.sym "y", .quote (.sym "y"), .dict ⟨0⟩]
    ∃ m s frame l, Evaluates i.runtime ⟨0⟩ [] (ws.map Value.quote) ws
        (after [] 0 [] [] ((Request.call ⟨0⟩ b ws).begin i.runtime 0 i.heap)) m ∧
      m.Enters i.runtime [] 0 i.heap b s frame ∧ s.toList.lookup "x" = some (.sym "y") ∧
      s.toList.lookup "r" = some (.list l) ∧
      m.heap.items l = [.quote (.sym "y"), .dict ⟨0⟩] := by
  intro i b ws
  have hroot : Ref.dict ⟨0⟩ ∈ i.heap.everything := by
    show i.heap.Allocated (.dict ⟨0⟩)
    decide +kernel
  have hparams : ∀ p ∈ b.params, ¬ IsReserved (paramName p) := by
    intro p hp hreserved
    simp only [b, List.mem_cons, List.not_mem_nil, or_false] at hp
    obtain rfl | rfl := hp
    · exact hreserved "x" (by decide)
    · exact hreserved "r" (by decide)
  have hdistinct : (b.params.map fun p => canonical (paramName p)).Nodup := by decide
  have hws : ∀ w ∈ ws, Has i.heap.everything w := by
    simp [ws, Has, Value.refs, hroot]
  obtain ⟨-, -, hvalues⟩ := call_arguments (Interpreter.tame_runtime 100)
    (region_new 100 Registry.standard fun _ => none) (Set.singleton_subset_iff.mpr hroot) hroot
    hparams hdistinct 0
  obtain ⟨m, s, frame, hevaluates, -, henters, hfixed, hrest⟩ := hvalues ws [] [] [] hws (by decide)
  obtain ⟨l, hl, hitems, -⟩ := (hrest "...r" "r" rfl (by decide)).1 (by decide)
  exact ⟨m, s, frame, l, hevaluates, henters, hfixed 0 "x" rfl (by decide), hl, hitems⟩

end Machine

/-- `[[a b ...r | r] 1]`: there is no argument for `b`. -/
def Script.starved : List Token :=
  let block := list [[.sym "a"], [.sym "b"], [.sym "...r"], [.sym "|"], [.sym "r"]]
  list [block, [.num (.nat 1)]]

/-- The frame of the body has `a` alone, and `r` is unbound in it. -/
theorem Machine.rest_unbound :
    let rt := (Interpreter.standard 100).runtime
    let m := Script.start (Interpreter.standard 100) Script.starved
    (m.run rt 5).scope? = some ⟨21⟩ ∧ (m.run rt 5).heap.names ⟨21⟩ = ["a"] ∧
      (m.run rt 8).failure? = some (.unbound "r" (some "a")) := by
  decide +kernel

end DictScript
