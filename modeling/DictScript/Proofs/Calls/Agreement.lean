import DictScript.Proofs.Calls.Protocols
import DictScript.Proofs.Renaming.Beside
import DictScript.Proofs.Renaming.Run

/-!
A block that is called with values does what it does when it is evaluated inside a dictionary that
has these values under the names of its parameters. Both are compared with a run of the body alone,
in a frame with nothing made beside it.
-/
namespace DictScript
open Heap
variable {rt : Runtime} {h k : Heap} {e d : DictId} {b : Block} {v : Value} {depth : Nat} {r : Ref}
variable {params : List String} {vs us : List Value} {stack base : List Frame} {c : DictCell}
variable {log : List String} {s : Slots} {m m' m₁ : Machine} {f : Frame} {o : Option DictCell}
variable {K : Set Ref}

/-! Numbers beside a dictionary that may have been made before. -/

namespace Heap

def besideMap (h : Heap) : Option DictCell → DictId → DictId
  | none => id
  | some _ => shift h.dicts.size

theorem besideMap_injective (h : Heap) (o : Option DictCell) :
    Function.Injective (h.besideMap o) := by
  cases o with
  | none => exact Function.injective_id
  | some c => exact shift_injective _

theorem besideMap_of_allocated (o : Option DictCell) (hd : h.Allocated (.dict d)) :
    h.besideMap o d = d := by
  cases o with
  | none => rfl
  | some c => exact shift_of_lt hd

theorem besideMap_next (h : Heap) (o : Option DictCell) :
    h.besideMap o ⟨h.dicts.size⟩ = ⟨(h.beside o).dicts.size⟩ := by
  cases o with
  | none => rfl
  | some c => exact (shift_of_le (Nat.le_refl _)).trans (congrArg DictId.mk (Array.size_push c).symm)

theorem besideMap_ne (ho : o.isSome) (d : DictId) : h.besideMap o d ≠ ⟨h.dicts.size⟩ := by
  cases o with
  | none => cases ho
  | some c => exact shift_ne _ d

theorem rename_of_allocated (o : Option DictCell) (hr : h.Allocated r) :
    r.rename (h.besideMap o) = r := by
  cases r with
  | dict d => exact congrArg Ref.dict (besideMap_of_allocated o hr)
  | list l => rfl
  | native n => rfl

theorem roots_beside (h : Heap) (o : Option DictCell) : (h.beside o).roots = h.roots := by
  cases o <;> rfl

/-- What is made first owns nothing but what is referred to from `us`, or shown by a view that is. -/
def Serves (h : Heap) (us : List Value) (o : Option DictCell) : Prop :=
  ∀ c, o = some c → ∀ r ∈ c.refs, (∃ u ∈ us, r ∈ u.refs) ∨
    ∃ v t, (∃ u ∈ us, .dict v ∈ u.refs) ∧ (h.cell v).target = some t ∧ r = .dict t

theorem serves_owner (hd : .dict d ∈ us) :
    (∃ u ∈ us, Ref.dict (h.owner d) ∈ u.refs) ∨ ∃ v t, (∃ u ∈ us, .dict v ∈ u.refs) ∧
      (h.cell v).target = some t ∧ Ref.dict (h.owner d) = .dict t := by
  rw [owner]
  cases ht : (h.cell d).target with
  | none => exact .inl ⟨.dict d, hd, List.mem_singleton_self _⟩
  | some t => exact .inr ⟨d, t, ⟨.dict d, hd, List.mem_singleton_self _⟩, ht, rfl⟩

/-- The numbers beside a new dictionary are those beside `o` under other numbers. -/
theorem exists_besideMap (h : Heap) (c : DictCell) (o : Option DictCell) :
    ∃ f, h.besideMap (some c) = f ∘ h.besideMap o ∧ Function.Injective f ∧
      ∀ d, h.Allocated (.dict d) → f d = d := by
  cases o with
  | none => exact ⟨_, rfl, shift_injective _, fun d hd => shift_of_lt hd⟩
  | some c' => exact ⟨id, rfl, Function.injective_id, fun _ _ => rfl⟩

theorem subsingleton_aside (h : Heap) (o : Option DictCell) :
    {d | ∀ q, d ≠ h.besideMap o q}.Subsingleton := by
  intro d hd e he
  cases o with
  | none => exact (hd d rfl).elim
  | some c =>
    have hnew : ∀ {a : DictId}, (∀ q, a ≠ shift h.dicts.size q) → a = ⟨h.dicts.size⟩ := by
      intro a ha
      by_contra hne
      obtain ⟨q, hq⟩ := exists_shift hne
      exact ha q hq
    rw [hnew hd, hnew he]

structure Fits (h : Heap) (c : DictCell) : Prop where
  refs : ∀ r ∈ c.refs, h.Allocated r
  parent : ∀ p, c.parent = some p → h.Allocated (.dict p)
  caller : ∀ p, c.caller = some p → h.Allocated (.dict p)

end Heap

/-- Beside `o` the values of `top` are held, and alone those of `us`. The frames `fs` are held in
both. -/
structure Heap.Beside (h : Heap) (us : List Value) (fs : List DictId) (top : List (List Value))
    (o : Option DictCell) : Prop where
  complete : h.Complete
  held : ∀ u ∈ us, Has h.heldRefs u
  serves : h.Serves us o
  frames : ∀ f ∈ fs, f = ⟨h.dicts.size⟩ ∧
    ∃ vs ∈ top, ∃ v ∈ vs, .dict (h.besideMap o f) ∈ v.refs
  near : ∀ vs ∈ top, ∀ v ∈ vs, ∀ r ∈ v.refs,
    h.Near us o r ∨ ∃ f ∈ fs, r = .dict (h.besideMap o f)

namespace Heap.Beside
variable {fs : List DictId} {top : List (List Value)}
variable (hb : h.Beside us fs top o)
include hb

theorem allocated {u : Value} (hu : u ∈ us) (hr : r ∈ u.refs) : h.Allocated r :=
  hb.complete.held r (hb.held u hu r hr)

def numbers : Renaming where
  map := h.besideMap o
  injective := h.besideMap_injective o
  below := (fs.map Value.dict ++ us) :: h.pins
  below' := top ++ h.pins
  beside vs hvs v hv r hr := by
    have hpinned : vs ∈ h.pins → r = r.rename (h.besideMap o) := fun hvs =>
      (rename_of_allocated o (hb.complete.held r
        (mem_heldRefs.mpr (.inr ⟨vs, hvs, v, hv, hr⟩)))).symm
    obtain hvs | hvs := List.mem_append.mp hvs
    · obtain (⟨u, hu, hur⟩ | ⟨ho, rfl⟩) | ⟨f, hf, rfl⟩ := hb.near vs hvs v hv r hr
      · refine .inl ⟨_, List.mem_cons_self, u, List.mem_append_right _ hu, r, hur, ?_⟩
        exact (rename_of_allocated o (hb.allocated hu hur)).symm
      · refine .inr fun q hq => ?_
        cases q with
        | dict q => exact besideMap_ne ho q (Ref.dict.inj hq).symm
        | list l => cases hq
        | native n => cases hq
      · exact .inl ⟨_, List.mem_cons_self, .dict f, List.mem_append_left _ (List.mem_map_of_mem hf),
          .dict f, List.mem_singleton_self _, rfl⟩
    · exact .inl ⟨vs, List.mem_cons_of_mem _ hvs, v, hv, r, hr, hpinned hvs⟩

theorem kept_of_us {u : Value} (hu : u ∈ us) (hr : r ∈ u.refs) : r ∈ hb.numbers.kept :=
  ⟨_, List.mem_cons_self, u, List.mem_append_right _ hu, hr⟩

theorem objects : hb.numbers.Objects h (h.beside o) := by
  cases o with
  | none => exact Renaming.objects_self rfl
  | some c =>
    refine Renaming.objects_beside hb.complete rfl fun r hr => ?_
    obtain ⟨u, hu, hur⟩ | ⟨v, t, ⟨u, hu, huv⟩, ht, rfl⟩ := hb.serves c rfl r hr
    · exact ⟨hb.allocated hu hur, .inl (hb.kept_of_us hu hur)⟩
    · refine ⟨?_, .inr ⟨v, t, hb.kept_of_us hu huv, ht, rfl⟩⟩
      exact hb.complete.owned _ (hb.allocated hu huv) _ (by simp [Heap.owned, DictCell.refs, ht])

/-- The frame for a body is made in both heaps. -/
theorem heaps (hc : h.Fits c) {T : Set Ref}
    (hedits : Edits (h, h.everything) ((h.newDict c).1, T)) (hS : h.Region h.everything) :
    hb.numbers.Heaps []
      { (h.newDict c).1 with pins := (fs.map Value.dict ++ us) :: h.pins }
      { ((h.beside o).newDict c).1 with pins := top ++ h.pins } := by
  have hmap : ∀ d, h.Allocated (.dict d) → hb.numbers.map d = d :=
    fun d hd => besideMap_of_allocated o hd
  have hcell : c.rename hb.numbers.map = c :=
    c.rename_eq_self (fun d hd => hmap d (hc.refs _ hd)) (fun p hp => hmap p (hc.parent p hp))
      fun p hp => hmap p (hc.caller p hp)
  have hobjects := (hb.objects.newDict c).pinned h.roots (h.beside o).roots
    ((fs.map Value.dict ++ us) :: h.pins) (top ++ h.pins)
  rw [hcell] at hobjects
  have hpins : ∀ vs ∈ h.pins, ∀ v ∈ vs, ∀ r ∈ v.refs, h.Allocated r :=
    fun vs hvs v hv r hr => hb.complete.held r (mem_heldRefs.mpr (.inr ⟨vs, hvs, v, hv, hr⟩))
  have hroots : ∀ v ∈ h.roots, ∀ r ∈ v.refs, h.Allocated r :=
    fun v hv r hr => hb.complete.held r (mem_heldRefs.mpr (.inl ⟨v, hv, hr⟩))
  have hall := hedits.tail (.hold h.roots ((fs.map Value.dict ++ us) :: h.pins))
  have hgrow : ∀ r, h.Allocated r → (h.newDict c).1.Allocated r :=
    fun r hr => (allocated_newDict c).mpr (.inr hr)
  have hgrow' : ∀ r, (h.beside o).Allocated r → ((h.beside o).newDict c).1.Allocated r :=
    fun r hr => (allocated_newDict c).mpr (.inr hr)
  refine { hobjects with
    roots := ?_, pins := rfl, pins' := rfl
    region := everything_of_edits hall hS ▸ Edits.region hall hS
    held := fun r hr => ?_, held' := fun vs hvs v hv r hr => ?_, kept' := fun r hr => ?_ }
  · refine (roots_beside h o).trans (renameAll_eq_self fun v hv d hd => ?_).symm
    exact hmap d (hroots v hv _ hd)
  · obtain ⟨v, hv, hr⟩ | ⟨vs, hvs, v, hv, hr⟩ := mem_heldRefs.mp hr
    · exact hgrow r (hroots v hv r hr)
    · obtain rfl | hvs := List.mem_cons.mp hvs
      · obtain hv | hv := List.mem_append.mp hv
        · obtain ⟨f, hf, rfl⟩ := List.mem_map.mp hv
          obtain rfl := List.mem_singleton.mp hr
          exact (hb.frames f hf).1 ▸ (allocated_newDict c).mpr (.inl rfl)
        · exact hgrow r (hb.allocated hv hr)
      · exact hgrow r (hpins vs hvs v hv r hr)
  · obtain hvs | hvs := List.mem_append.mp hvs
    · obtain (⟨u, hu, hur⟩ | ⟨ho, rfl⟩) | ⟨f, hf, rfl⟩ := hb.near vs hvs v hv r hr
      · exact hgrow' r (allocated_beside o (hb.allocated hu hur))
      · show ((h.beside o).newDict c).1.Allocated (.dict ⟨h.dicts.size⟩)
        refine hgrow' _ ?_
        cases o with
        | none => cases ho
        | some c' => exact (allocated_newDict c').mpr (.inl rfl)
      · rw [(hb.frames f hf).1, besideMap_next]
        exact (allocated_newDict c).mpr (.inl rfl)
    · exact hgrow' r (allocated_beside o (hpins vs hvs v hv r hr))
  · have hsame : ∀ {r : Ref}, r ∈ h.heldRefs → (∃ v ∈ h.roots, r ∈ v.refs) ∨
        ∃ vs ∈ top ++ h.pins, ∃ v ∈ vs, r.rename (h.besideMap o) ∈ v.refs := by
      intro r hr
      refine (mem_heldRefs.mp hr).imp_right ?_
      rintro ⟨vs, hvs, v, hv, hvr⟩
      refine ⟨vs, List.mem_append_right _ hvs, v, hv, ?_⟩
      rwa [rename_of_allocated o (hb.complete.held r hr)]
    obtain ⟨vs, hvs, v, hv, hr⟩ := hr
    obtain rfl | hvs := List.mem_cons.mp hvs
    · obtain hv | hv := List.mem_append.mp hv
      · obtain ⟨f, hf, rfl⟩ := List.mem_map.mp hv
        obtain rfl := List.mem_singleton.mp hr
        obtain ⟨ws, hws, w, hw, hfw⟩ := (hb.frames f hf).2
        exact .inr ⟨ws, List.mem_append_left _ hws, w, hw, hfw⟩
      · exact hsame (hb.held v hv r hr)
    · exact hsame (mem_heldRefs.mpr (.inr ⟨vs, hvs, v, hv, hr⟩))

end Heap.Beside

/-! The body alone. -/

theorem fits_bodyCell (hh : h.Complete) (he : .dict e ∈ h.heldRefs)
    (hb : Has h.heldRefs (.block b)) (hs : ∀ x ∈ s.toList, Has h.heldRefs x.2) :
    h.Fits (bodyCell e b s) := by
  refine ⟨fun r hr => hh.held r ?_, ?_, ?_⟩
  · simp only [DictCell.refs, bodyCell, Option.toList_some, Option.toList_none, List.map_cons,
      List.map_nil, List.append_nil, List.mem_append, List.mem_singleton, List.mem_flatMap] at hr
    obtain ⟨x, hx, hr⟩ | rfl := hr
    · obtain hx | ⟨d, hd, hxd⟩ := mem_bodySlots hx
      · exact hs x hx r hr
      · rw [hxd] at hr
        exact List.mem_singleton.mp hr ▸ has_receiver hb hd
    · exact has_env hb
  · rintro p ⟨⟩
    exact hh.held _ (has_env hb)
  · rintro p ⟨⟩
    exact hh.held _ he

namespace Machine

/-- The body runs in a frame with the arguments `s`, with nothing made beside it and nothing to come
back to. -/
def bodyAlone (depth : Nat) (log : List String) (h : Heap) (e : DictId) (b : Block) (s : Slots)
    (us : List Value) : Machine :=
  proceed [] (depth + 1) log (.body b.body ⟨h.dicts.size⟩ [])
    { (h.newDict (bodyCell e b s)).1 with pins := (.dict ⟨h.dicts.size⟩ :: us) :: h.pins }

end Machine

section
variable (hkept : h.Kept rt.root) (hslots : h.slots d = s.toList)
variable (henv : s.toList.lookup envName = none) (he : .dict e ∈ h.heldRefs)
variable (hd : .dict d ∈ h.heldRefs) (hb : Has h.heldRefs (.block b))
include hkept hslots henv hd

theorem Heap.Kept.invoke_alone (depth : Nat) :
    invoke rt depth e d b [] h =
      runBody rt depth b ⟨h.dicts.size⟩
        [.block b, .dict d, .dict b.env, .dict ⟨h.dicts.size⟩]
        (h.newDict (bodyCell e b s)).1 :=
  invoke_of_slots hslots henv (hkept.good.complete.held _ hd)
    (hkept.good.complete.owner (hkept.good.complete.held _ hd))

include he hb

theorem Heap.Kept.edits_alone (hS : h.Region h.everything) :
    ∃ T, Edits (h, h.everything) ((h.newDict (bodyCell e b s)).1, T) := by
  have hmade : h.heldRefs ⊆ h.everything := hkept.good.complete.held
  have hstays : Stays (h, h.everything) (invoke rt 0 e d b [] h) :=
    stays_invoke hS (hmade he) (hmade hd) (hb.mono hmade) (List.forall_mem_nil _)
  obtain ⟨T, hedits, -⟩ := hstays
  rw [hkept.invoke_alone hslots henv hd, heap_runBody] at hedits
  exact ⟨T, hedits⟩

/-- The frame of the body is in hand, with all that was held before. -/
theorem Heap.Kept.leads_alone (hdepth : depth < rt.maxDepth) :
    ∃ L, h.heldRefs ⊆ L ∧ Leads rt.root (h, h.heldRefs) ((h.newDict (bodyCell e b s)).1, L) ∧
      (h.newDict (bodyCell e b s)).1.Living L (.dict ⟨h.dicts.size⟩) := by
  have hsound : Sound rt.root h.pins (h, h.heldRefs) (invoke rt depth e d b [] h) :=
    sound_invoke hkept.good he hd hb (List.forall_mem_nil _)
  obtain ⟨L, hL, hleads, hknown⟩ := hsound
  rw [hkept.invoke_alone hslots henv hd] at hleads hknown
  rw [heap_runBody] at hleads hknown
  rw [runBody, if_neg (Nat.not_le.mpr hdepth)] at hknown
  have hframe := hknown.frames (.application ⟨h.dicts.size⟩
    [.block b, .dict d, .dict b.env, .dict ⟨h.dicts.size⟩])
  rw [(Machine.body_eq _ _ _).2] at hframe
  exact ⟨L, hL, hleads, hframe (List.mem_append_right _ (List.mem_singleton_self _)) (.dict _)
    List.mem_cons_self _ (List.mem_singleton_self _)⟩

variable (hus : ∀ u ∈ us, Has h.heldRefs u) (hdepth : depth < rt.maxDepth)
include hus hdepth

theorem Heap.Kept.good_alone :
    let k : Heap :=
      { (h.newDict (bodyCell e b s)).1 with pins := (.dict ⟨h.dicts.size⟩ :: us) :: h.pins }
    k.Good k.heldRefs := by
  intro k
  obtain ⟨L, hL, hleads, hframe⟩ := hkept.leads_alone hslots henv he hd hb hdepth
  have hold : ∀ r ∈ h.heldRefs, (h.newDict (bodyCell e b s)).1.Living L r :=
    fun r hr => living_of_mem (hL hr)
  have hgood := (hleads.good hkept.good).rehold (k := k) (L := ∅) ⟨_, _, rfl⟩ (fun r hr => ?_)
    fun r hr => (Set.notMem_empty r hr).elim
  · rwa [Set.union_empty] at hgood
  · obtain ⟨v, hv, hr⟩ | ⟨vs, hvs, v, hv, hr⟩ := mem_heldRefs.mp hr
    · exact hold r (mem_heldRefs.mpr (.inl ⟨v, hv, hr⟩))
    · obtain rfl | hvs := List.mem_cons.mp hvs
      · obtain rfl | hv := List.mem_cons.mp hv
        · exact List.mem_singleton.mp hr ▸ hframe
        · exact hold r (hus v hv r hr)
      · exact hold r (mem_heldRefs.mpr (.inr ⟨vs, hvs, v, hv, hr⟩))

theorem Machine.stands_bodyAlone (hS : h.Region h.everything) (hK : K ⊆ h.everything)
    (log : List String) :
    (bodyAlone depth log h e b s us).Stands rt K (depth + 1)
      ((.dict ⟨h.dicts.size⟩ :: us) :: h.pins) := by
  let k : Heap :=
    { (h.newDict (bodyCell e b s)).1 with pins := (.dict ⟨h.dicts.size⟩ :: us) :: h.pins }
  have hg : k.Good k.heldRefs := hkept.good_alone hslots henv he hd hb hus hdepth
  obtain ⟨T, hedits⟩ := hkept.edits_alone hslots henv he hd hb hS
  have hpinned : Edits (h, h.everything) (k, T) := hedits.tail (.hold _ _)
  obtain rfl := everything_of_edits hpinned hS
  have hframe : .dict ⟨h.dicts.size⟩ ∈ k.heldRefs :=
    mem_heldRefs.mpr (.inr ⟨_, List.mem_cons_self, _, List.mem_cons_self, List.mem_singleton_self _⟩)
  have hbody : ∀ x ∈ b.body, Has k.heldRefs x := by
    intro x hx r hr
    obtain ⟨v, hv, hr⟩ | ⟨vs, hvs, v, hv, hr⟩ := mem_heldRefs.mp (has_body hb hx r hr)
    · exact mem_heldRefs.mpr (.inl ⟨v, hv, hr⟩)
    · exact mem_heldRefs.mpr (.inr ⟨vs, List.mem_cons_of_mem _ hvs, v, hv, hr⟩)
  have hmade : k.heldRefs ⊆ k.everything := hg.complete.held
  refine ⟨?_, ?_⟩
  · have hnone : ∀ f ∈ ([] : List Frame), f.Tame (k, k.everything) := List.forall_mem_nil _
    have hdepth : depth + 1 = depth + 1 + applications [] := rfl
    obtain ⟨T, hedits', hinside⟩ := inside_proceed [] log (hpinned.region hS)
      (hK.trans hpinned.sub) hnone hdepth (Stays.body (fun x hx => (hbody x hx).mono hmade)
        (hmade hframe) (List.forall_mem_nil _)) (.inl rfl)
    obtain rfl := everything_of_edits hedits' (hpinned.region hS)
    exact hinside
  · have hstacked : Stacked rt.root ((.dict ⟨h.dicts.size⟩ :: us) :: h.pins) [] := trivial
    exact ok_proceed hg hkept.root (fun _ hvs => hvs) hstacked
      (sound_body (fun x hx => (hbody x hx).knows) hframe (List.forall_mem_nil _) trivial).safe
      (.inl rfl) rfl

end

/-! Leaving the application. -/

def Control.leaving (h : Heap) (frame : DictId) : Control → Control
  | .raise e => .raise (e.raisedIn h frame)
  | c => c

theorem Renaming.Heaps.leaving {ρ : Renaming} {ws : List (List Value)} {h' : Heap}
    (hh : ρ.Heaps ws h h') (control : Control) (frame : DictId) :
    (control.rename ρ.map).leaving h' (ρ.map frame) = (control.leaving h frame).rename ρ.map := by
  cases control with
  | raise error => exact congrArg Control.raise (hh.raisedIn frame error)
  | _ => rfl

namespace Machine

theorem step_application {frame : DictId} {kept : List Value} (rt : Runtime)
    (hrests : m.Rests (.application frame kept :: stack)) :
    (m.step rt).Rests stack ∧ (m.step rt).control = m.control.leaving m.heap frame ∧
      (m.step rt).log = m.log ∧ SameObjects m.heap (m.step rt).heap := by
  obtain ⟨control, frames, depth, h, log⟩ := m
  obtain ⟨hstack, hanswered⟩ := hrests
  obtain rfl : frames = .application frame kept :: stack := hstack
  cases control with
  | eval e env => exact (hanswered e env rfl).elim
  | ret v =>
    exact ⟨⟨rfl, by simp [step, proceed, Frame.resume, Move.ret]⟩, rfl, rfl, lists_hold h v,
      dicts_hold h v, natives_hold h v⟩
  | raise e => exact ⟨⟨rfl, by simp [step, proceed, Frame.unwind, Move.raise]⟩, rfl, rfl, rfl, rfl, rfl⟩

structure Mirrors (f : DictId → DictId) (c : Control) (log : List String) (k : Heap) (m : Machine) :
    Prop where
  control : m.control = c.rename f
  log : m.log = log
  items : ∀ l, m.heap.items l = renameAll f (k.items l)
  native : ∀ n, m.heap.native? n = (k.native? n).map (Native.rename f)
  cell : ∀ d, m.heap.cell (f d) = (k.cell d).rename f

theorem Mirrors.of_objects {ρ : Renaming} {c : Control} (ho : ρ.Objects k m.heap)
    (hcontrol : m'.control = c.rename ρ.map) (hlog : m'.log = log)
    (hsame : SameObjects m.heap m'.heap) : m'.Mirrors ρ.map c log k where
  control := hcontrol
  log := hlog
  items l := by
    have hitems : m'.heap.items l = m.heap.items l := by rw [Heap.items, Heap.items, hsame.lists]
    exact hitems.trans (ho.items l)
  native n := by
    have hnative : m'.heap.native? n = m.heap.native? n := by
      rw [Heap.native?, Heap.native?, hsame.natives]
    exact hnative.trans (ho.native n)
  cell d := (cell_congr hsame.dicts).trans (ho.cell d)

def BeginsIn (b : Block) (frame : DictId) (below : List Frame) (m : Machine) : Prop :=
  ∃ kept, m.control = (Move.body b.body frame []).control ∧
    m.stack = (Move.body b.body frame []).frames ++ .application frame kept :: below

/-- To run a body on top of its application is to run it on top of one that is there. -/
theorem after_body (es : List Value) (frame : DictId) (kept : List Value)
    (pins : List (List Value)) :
    after stack depth log pins (.body es frame [.application frame kept], h) =
      proceed (.application frame kept :: stack) (depth + 1) log (.body es frame [])
        { h with pins := (.dict frame :: kept) :: pins } := by
  cases es <;> rfl

inductive EndsAlone (rt : Runtime) (depth : Nat) (log : List String) (h : Heap) (e : DictId)
    (b : Block) (s : Slots) (us : List Value) : Control → List String → Heap → Prop where
  | refused {k : Heap} : rt.maxDepth ≤ depth →
      k = { (h.newDict (bodyCell e b s)).1 with pins := us :: h.pins } →
      EndsAlone rt depth log h e b s us
        (Move.failIn k ⟨h.dicts.size⟩ (.exhausted rt.maxDepth)).control log k
  | ran {m : Machine} : depth < rt.maxDepth → Returns rt [] (bodyAlone depth log h e b s us) m →
      EndsAlone rt depth log h e b s us (m.control.leaving m.heap ⟨h.dicts.size⟩) m.log m.heap

section
variable (hlawful : rt.Lawful) (htame : rt.Tame K) (huniform : rt.Uniform K)
variable (hkept : h.Kept rt.root) (hS : h.Region h.everything) (hK : K ⊆ h.everything)
variable (hslots : h.slots d = s.toList) (henv : s.toList.lookup envName = none)
variable (he : .dict e ∈ h.heldRefs) (hd : .dict d ∈ h.heldRefs) (hb : Has h.heldRefs (.block b))
variable (hs : ∀ x ∈ s.toList, Has h.heldRefs x.2) (hus : ∀ u ∈ us, Has h.heldRefs u)
variable (hserves : h.Serves us o)
include hkept hS hslots henv he hd hb hs hus hserves

/-- Where the block lands without room for its body, it ends as the body does alone. -/
theorem Lands.refused (hm : m.Lands rt stack depth log h e b s us o)
    (hdepth : rt.maxDepth ≤ depth) :
    let k : Heap := { (h.newDict (bodyCell e b s)).1 with pins := us :: h.pins }
    ∃ m₁, Returns rt stack m m₁ ∧ m₁.Mirrors (h.besideMap o)
      (Move.failIn k ⟨h.dicts.size⟩ (.exhausted rt.maxDepth)).control log k := by
  intro k
  obtain ⟨held, extra, kept, hworks, hnear, -⟩ := hm
  have hpins : extra ++ held :: h.pins = (extra ++ [held]) ++ h.pins := List.append_cons _ _ _
  rw [runBody, if_pos hdepth, hpins, ← besideMap_next] at hworks
  have hbeside : h.Beside us [] (extra ++ [held]) o :=
    { complete := hkept.good.complete
      held := hus
      serves := hserves
      frames := List.forall_mem_nil _
      near := fun vs hvs v hv r hr => .inl (hnear vs (by simpa [or_comm] using hvs) v hv r hr) }
  obtain ⟨T, hedits⟩ := hkept.edits_alone hslots henv he hd hb hS
  have hh := hbeside.heaps (fits_bodyCell hkept.good.complete he hb hs) hedits hS
  refine ⟨_, hworks.returns_iff.mpr (.here ⟨rfl, ?_⟩), ?_⟩
  · simp [after, proceed, Move.failIn, Move.raise]
  · exact .of_objects (m := ⟨.ret .nil, [], 0, _, []⟩) hh.toObjects
      (hh.failIn ⟨h.dicts.size⟩ (.exhausted rt.maxDepth)).control rfl ⟨rfl, rfl, rfl⟩

/-- Where there is room, the body runs as it does alone. -/
theorem Lands.copies (hm : m.Lands rt stack depth log h e b s us o)
    (hdepth : depth < rt.maxDepth) :
    ∃ ρ kept m', ρ.map = h.besideMap o ∧ ρ.below = (.dict ⟨h.dicts.size⟩ :: us) :: h.pins ∧
      Works rt stack m m' ∧ m'.BeginsIn b ⟨(h.beside o).dicts.size⟩ stack ∧
      m'.heap.cell ⟨(h.beside o).dicts.size⟩ = bodyCell e b s ∧
      (bodyAlone depth log h e b s us).Copies ρ
        (.application ⟨(h.beside o).dicts.size⟩ kept :: stack) m' := by
  obtain ⟨held, extra, kept, hworks, hnear, hkeptNear⟩ := hm
  rw [runBody, if_neg (Nat.not_le.mpr hdepth)] at hworks
  have hbeside : h.Beside us [⟨h.dicts.size⟩]
      [.dict ⟨(h.beside o).dicts.size⟩ :: kept, held] o :=
    { complete := hkept.good.complete
      held := hus
      serves := hserves
      frames := by
        refine List.forall_mem_singleton.mpr ⟨rfl, _, List.mem_cons_self, _, List.mem_cons_self, ?_⟩
        rw [besideMap_next]
        exact List.mem_singleton_self _
      near := fun vs hvs v hv r hr => by
        have hframe : r = .dict ⟨(h.beside o).dicts.size⟩ →
            ∃ f ∈ [(⟨h.dicts.size⟩ : DictId)], r = .dict (h.besideMap o f) := by
          rintro rfl
          exact ⟨_, List.mem_singleton_self _, by rw [besideMap_next]⟩
        obtain rfl | hvs := List.mem_cons.mp hvs
        · obtain rfl | hv := List.mem_cons.mp hv
          · exact .inr (hframe (List.mem_singleton.mp hr))
          · exact (hkeptNear v hv r hr).symm.imp_right hframe
        · obtain rfl := List.mem_singleton.mp hvs
          exact .inl (hnear vs List.mem_cons_self v hv r hr) }
  obtain ⟨T, hedits⟩ := hkept.edits_alone hslots henv he hd hb hS
  have hh := hbeside.heaps (fits_bodyCell hkept.good.complete he hb hs) hedits hS
  have hmade := hkept.good.complete.held
  have hbody : renameAll (h.besideMap o) b.body = b.body :=
    renameAll_eq_self fun x hx c hc => besideMap_of_allocated o (hmade _ (has_body hb hx _ hc))
  have hstands := stands_bodyAlone hkept hslots henv he hd hb hus hdepth hS
    (Set.empty_subset _) log
  have hhere : hbeside.numbers.After (([] : List Frame).map Frame.held) _ _ _ := hh.here
  have hcopies := copies_proceed (.application ⟨(h.beside o).dicts.size⟩ kept :: stack)
    (depth + 1) log (hh.body b.body ⟨h.dicts.size⟩ .nil) hhere (.nil : List.Forall₂ _ [] [])
    fun f hf => (hstands.work f (List.mem_append_left _ hf)).held
  have hmap : hbeside.numbers.map ⟨h.dicts.size⟩ = _ := besideMap_next h o
  have hsame : hbeside.numbers.map = h.besideMap o := rfl
  rw [hmap, hsame, hbody] at hcopies
  rw [after_body] at hworks
  exact ⟨hbeside.numbers, kept, _, rfl, rfl, hworks, ⟨kept, rfl, rfl⟩,
    (cell_newDict (h.beside o) (bodyCell e b s)).trans (if_pos rfl), hcopies⟩

variable (hlawful : rt.Lawful) (htame : rt.Tame K) (huniform : rt.Uniform K)
variable (hK : K ⊆ h.everything)
include hlawful htame huniform hK

/-- What the body comes to alone is what the machine comes to, under other numbers. -/
theorem Lands.mirrors {c : Control} {l : List String}
    (hm : m.Lands rt stack depth log h e b s us o)
    (hends : EndsAlone rt depth log h e b s us c l k) :
    ∃ m₁, Returns rt stack m m₁ ∧ m₁.Mirrors (h.besideMap o) c l k := by
  cases hends with
  | refused hdepth hk =>
    subst hk
    exact hm.refused hkept hS hslots henv he hd hb hs hus hserves hdepth
  | @ran k hdepth hreturns =>
    obtain ⟨ρ, kept, m', hmap, hbelow, hworks, ⟨kept', -, hstack⟩, -, hcopies⟩ :=
      hm.copies hkept hS hslots henv he hd hb hs hus hserves hdepth
    have hstands := stands_bodyAlone hkept hslots henv he hd hb hus hdepth hS hK log
    rw [← hbelow] at hstands
    have hfixes : ρ.Fixes K := fun d hd => hmap ▸ besideMap_of_allocated o (hK hd)
    obtain ⟨k', hreturns', hk⟩ := hcopies.returns hlawful htame huniform hfixes hreturns hstands
    obtain ⟨above, habove, -⟩ := hcopies.stack
    obtain ⟨hrests, hcontrol, hlog, hsame⟩ := step_application rt hreturns'.rests
    refine ⟨k'.step rt, hworks.returns_iff.mpr ((returns_cons_iff habove).mpr
      ⟨k', hreturns', ?_⟩), ?_⟩
    · have hstack : k'.stack = [] ++ _ :: stack := hreturns'.rests.stack
      exact .step (not_rests_below hstack) (.here hrests)
    · rw [← hmap]
      refine .of_objects hk.heaps.toObjects ?_ (hlog.trans hk.log) hsame
      rw [hcontrol, hk.control, ← besideMap_next, ← hmap]
      exact hk.heaps.leaving _ _

/-- If the machine comes to anything, the body does alone. -/
theorem Lands.ends_alone (hm : m.Lands rt stack depth log h e b s us o)
    (hreturns : Returns rt stack m m₁) :
    ∃ c l k, EndsAlone rt depth log h e b s us c l k := by
  by_cases hdepth : depth < rt.maxDepth
  · obtain ⟨ρ, kept, m', hmap, hbelow, hworks, -, -, hcopies⟩ :=
      hm.copies hkept hS hslots henv he hd hb hs hus hserves hdepth
    have hstands := stands_bodyAlone hkept hslots henv he hd hb hus hdepth hS hK log
    rw [← hbelow] at hstands
    have hfixes : ρ.Fixes K := fun d hd => hmap ▸ besideMap_of_allocated o (hK hd)
    obtain ⟨above, habove, -⟩ := hcopies.stack
    obtain ⟨k', hk', -⟩ := (returns_cons_iff habove).mp (hworks.returns_iff.mp hreturns)
    obtain ⟨k, hk, -⟩ := hcopies.returned hlawful htame huniform hfixes hk' hstands
    exact ⟨_, _, _, .ran hdepth hk⟩
  · exact ⟨_, _, _, .refused (Nat.le_of_not_lt hdepth) rfl⟩

end
/-- What has another number is referred to from nothing that was renamed. -/
theorem not_mem_refs_rename {g : DictId → DictId} (hd : ∀ q, d ≠ g q) (refs : List Ref) :
    .dict d ∉ refs.map (Ref.rename g) := by
  intro hmem
  obtain ⟨q, -, hq⟩ := List.mem_map.mp hmem
  cases q with
  | dict q => exact hd q (Ref.dict.inj hq).symm
  | list l => cases hq
  | native n => cases hq

/-- The result, the log and the objects of `m'` are those of `m` under other numbers. What `m` has
aside nothing else leads to. -/
structure Agree (f : DictId → DictId) (aside : Set DictId) (m m' : Machine) : Prop where
  control : m'.control = m.control.rename f
  log : m'.log = m.log
  items : ∀ l, m'.heap.items l = renameAll f (m.heap.items l)
  native : ∀ n, m'.heap.native? n = (m.heap.native? n).map (Native.rename f)
  cell : ∀ d, d ∉ aside → m'.heap.cell (f d) = (m.heap.cell d).rename f
  apart : ∀ d ∈ aside, .dict d ∉ m.control.refs ∧
    ∀ o, (∀ c ∈ aside, o ≠ .dict c) → .dict d ∉ m.heap.owned o

theorem Mirrors.agree {f g : DictId → DictId} {c : Control} {l : List String}
    (hm : m.Mirrors g c l k) (hm' : m'.Mirrors (f ∘ g) c l k) :
    m.Agree f {d | ∀ q, d ≠ g q} m' := by
  refine ⟨?_, hm'.log.trans hm.log.symm, fun n => ?_, fun n => ?_, fun d hd => ?_,
    fun d hd => ⟨?_, fun o ho => ?_⟩⟩
  · rw [hm'.control, hm.control, Control.rename_rename]
  · rw [hm'.items, hm.items, renameAll_renameAll]
  · rw [hm'.native, hm.native, Option.map_map]
    exact congrFun (congrArg Option.map (funext fun x => (x.rename_rename g f).symm)) _
  · obtain ⟨q, rfl⟩ : ∃ q, d = g q := by simpa using hd
    rw [hm.cell, DictCell.rename_rename]
    exact hm'.cell q
  · have hrefs : (c.rename g).refs = c.refs.map (Ref.rename g) := by
      cases c with
      | raise e => rfl
      | _ => exact Value.refs_rename g _
    rw [hm.control, hrefs]
    exact not_mem_refs_rename hd _
  · cases o with
    | list l =>
      rw [Heap.owned, hm.items, allRefs_renameAll]
      exact not_mem_refs_rename hd _
    | dict a =>
      obtain ⟨q, rfl⟩ : ∃ q, a = g q := by
        by_contra hnone
        exact ho a (fun q hq => hnone ⟨q, hq⟩) rfl
      rw [Heap.owned, hm.cell, DictCell.refs_rename]
      exact not_mem_refs_rename hd _
    | native n =>
      rw [Heap.owned, hm.native]
      cases k.native? n with
      | none => exact List.not_mem_nil
      | some x =>
        rw [Option.map_some, Option.map_some, Option.getD_some, Native.refs_rename]
        exact not_mem_refs_rename hd _

end Machine

/-! Both ways. -/

theorem Slots.toList_putAll {xs : List (String × Value)}
    (hnames : ((s.toList ++ xs).map Prod.fst).Nodup) :
    (s.putAll xs).toList = s.toList ++ xs := by
  induction xs generalizing s with
  | nil => rw [List.append_nil]; rfl
  | cons x xs ih =>
    have hput : (s.put x.1 x.2).toList = s.toList ++ [x] := by
      refine putSlot_of_not_mem fun hmem => ?_
      rw [List.map_append, List.map_cons] at hnames
      exact (List.nodup_append.mp hnames).2.2 _ hmem _ List.mem_cons_self rfl
    refine (ih (s := s.put x.1 x.2) ?_).trans ?_
    · rw [hput, List.append_assoc]
      exact hnames
    · rw [hput, List.append_assoc]
      rfl

theorem toList_fixedSlots (hdistinct : (params.map canonical).Nodup) (vs : List Value) :
    (fixedSlots params vs).toList = (params.map canonical).zip vs := by
  refine Slots.toList_putAll (List.Nodup.sublist ?_ hdistinct)
  show (((params.map canonical).zip vs).map Prod.fst).Sublist _
  rw [List.zip_eq_zip_take_min, List.map_fst_zip (by simp)]
  exact List.take_sublist _ _

theorem lookup_env_fixedSlots (hparams : Fixed params)
    (hdistinct : (params.map canonical).Nodup) (vs : List Value) :
    (fixedSlots params vs).toList.lookup envName = none := by
  rw [toList_fixedSlots hdistinct, ← Option.not_isSome_iff_eq_none, lookup_isSome_iff]
  intro hmem
  obtain ⟨x, hx, hname⟩ := List.mem_map.mp hmem
  obtain ⟨p, hp, hpx⟩ := List.mem_map.mp (List.of_mem_zip hx).1
  exact (hparams p hp).2.2 (hpx.trans hname)

namespace Machine

/-- A call that gives a block values comes to what evaluating the block inside a dictionary comes to
that has these values under the names of its parameters. The body runs in frames with the same cell,
and the two end with the same result and the same objects, up to the numbers of dictionaries that
were made meanwhile. -/
theorem call_agrees_evalWithin (hlawful : rt.Lawful) (htame : rt.Tame K) (huniform : rt.Uniform K)
    (hkept : h.Kept rt.root) (hS : h.Region h.everything) (hK : K ⊆ h.everything)
    (hparams : Fixed b.params) (hdistinct : (b.params.map canonical).Nodup)
    (hfits : vs.length ≤ b.params.length) (he : .dict e ∈ h.heldRefs) (hd : .dict d ∈ h.heldRefs)
    (hb : Has h.heldRefs (.block b)) (hvs : ∀ v ∈ vs, Has h.heldRefs v)
    (hslots : h.slots d = (b.params.map canonical).zip vs) (stack : List Frame) (depth : Nat)
    (log : List String) :
    let called := call rt stack depth log h e b vs
    let applied := evalWithin rt stack depth log h e d (.block b)
    (depth < rt.maxDepth → ∃ n₁ n₂ frame₁ frame₂,
      (called.run rt n₁).BeginsIn b frame₁ stack ∧
      (applied.run rt n₂).BeginsIn b frame₂ stack ∧
      (called.run rt n₁).heap.cell frame₁ = bodyCell e b (fixedSlots b.params vs) ∧
      (applied.run rt n₂).heap.cell frame₂ = bodyCell e b (fixedSlots b.params vs)) ∧
    ∃ f aside, Function.Injective f ∧ aside.Subsingleton ∧
      (∀ d, h.Allocated (.dict d) → f d = d ∧ d ∉ aside) ∧
      (∀ m₁, Returns rt stack called m₁ →
        ∃ m₂, Returns rt stack applied m₂ ∧ m₂.Agree f aside m₁) ∧
      ∀ m₂, Returns rt stack applied m₂ →
        ∃ m₁, Returns rt stack called m₁ ∧ m₂.Agree f aside m₁ := by
  intro called applied
  let us := .dict e :: .dict d :: .block b :: vs
  let s := fixedSlots b.params vs
  have hslots : h.slots d = s.toList := hslots.trans (toList_fixedSlots hdistinct vs).symm
  have henv := lookup_env_fixedSlots hparams hdistinct vs
  have hs : ∀ x ∈ s.toList, Has h.heldRefs x.2 := by
    intro x hx
    rw [toList_fixedSlots hdistinct] at hx
    exact hvs _ (List.of_mem_zip hx).2
  have hus : ∀ u ∈ us, Has h.heldRefs u := by
    intro u hu
    simp only [us, List.mem_cons] at hu
    obtain rfl | rfl | rfl | hu := hu
    · exact has_dict.mpr he
    · exact has_dict.mpr hd
    · exact hb
    · exact hvs u hu
  have hmade : ∀ r ∈ h.heldRefs, h.Allocated r := hkept.good.complete.held
  have hcalled : called.Lands rt stack depth log h e b s us (some (argsCell e b s)) := by
    refine call_lands stack log hparams hfits henv fun v hv => ?_
    simp only [Request.held, List.mem_cons] at hv
    simp only [us, List.mem_cons]
    obtain rfl | rfl | hv := hv
    · exact .inl rfl
    · exact .inr (.inr (.inl rfl))
    · exact .inr (.inr (.inr hv))
  have happliedHeld : ∀ v ∈ (Request.apply e d (.block b)).held, v ∈ us := by
    intro v hv
    simp only [Request.held, List.mem_cons, List.not_mem_nil, or_false] at hv
    simp only [us, List.mem_cons]
    obtain rfl | rfl | rfl := hv
    · exact .inl rfl
    · exact .inr (.inl rfl)
    · exact .inr (.inr (.inl rfl))
  obtain ⟨o, happlied, hview⟩ := evalWithin_lands rt stack depth log hslots henv (hmade _ hd)
    (hkept.good.complete.owner (hmade _ hd)) happliedHeld
  have hserves₁ : h.Serves us (some (argsCell e b s)) := by
    rintro c ⟨⟩ r hr
    simp only [DictCell.refs, argsCell, Option.toList_some, Option.toList_none, List.map_cons,
      List.map_nil, List.append_nil, List.mem_append, List.mem_singleton, List.mem_flatMap] at hr
    obtain ⟨x, hx, hr⟩ | rfl := hr
    · rw [toList_fixedSlots hdistinct] at hx
      exact .inl ⟨x.2, by simp [us, (List.of_mem_zip hx).2], hr⟩
    · exact .inl ⟨.dict e, List.mem_cons_self, List.mem_singleton_self _⟩
  have hserves₂ : h.Serves us o := by
    intro c hc r hr
    obtain rfl | rfl := hview c hc r hr
    · exact .inl ⟨.dict e, List.mem_cons_self, List.mem_singleton_self _⟩
    · exact serves_owner (List.mem_cons_of_mem _ List.mem_cons_self)
  refine ⟨fun hdepth => ?_, ?_⟩
  · obtain ⟨-, -, m₁, -, -, hworks₁, hbegins₁, hcell₁, -⟩ :=
      hcalled.copies hkept hS hslots henv he hd hb hs hus hserves₁ hdepth
    obtain ⟨-, -, m₂, -, -, hworks₂, hbegins₂, hcell₂, -⟩ :=
      happlied.copies hkept hS hslots henv he hd hb hs hus hserves₂ hdepth
    obtain ⟨n₁, rfl⟩ := hworks₁.exists_run
    obtain ⟨n₂, rfl⟩ := hworks₂.exists_run
    exact ⟨n₁, n₂, _, _, hbegins₁, hbegins₂, hcell₁, hcell₂⟩
  · obtain ⟨f, hf, hinjective, hfixes⟩ := exists_besideMap h (argsCell e b s) o
    have hmirrors₁ := fun c l k => hcalled.mirrors (c := c) (l := l) (k := k) hlawful htame
      huniform hkept hS hK hslots henv he hd hb hs hus hserves₁
    have hmirrors₂ := fun c l k => happlied.mirrors (c := c) (l := l) (k := k) hlawful htame
      huniform hkept hS hK hslots henv he hd hb hs hus hserves₂
    rw [hf] at hmirrors₁
    refine ⟨f, {c | ∀ q, c ≠ h.besideMap o q}, hinjective, subsingleton_aside h o, fun c hc =>
      ⟨hfixes c hc, fun hnone => hnone c (besideMap_of_allocated o hc).symm⟩, fun m₁ hm₁ => ?_,
      fun m₂ hm₂ => ?_⟩
    · obtain ⟨c, l, k, hends⟩ := hcalled.ends_alone hlawful htame huniform hkept hS hK hslots henv
        he hd hb hs hus hserves₁ hm₁
      obtain ⟨m₁', hm₁', hmirrors⟩ := hmirrors₁ c l k hends
      obtain rfl := hm₁'.unique hm₁
      obtain ⟨m₂, hm₂, hmirrors'⟩ := hmirrors₂ c l k hends
      exact ⟨m₂, hm₂, hmirrors'.agree hmirrors⟩
    · obtain ⟨c, l, k, hends⟩ := happlied.ends_alone hlawful htame huniform hkept hS hK hslots henv
        he hd hb hs hus hserves₂ hm₂
      obtain ⟨m₂', hm₂', hmirrors'⟩ := hmirrors₂ c l k hends
      obtain rfl := hm₂'.unique hm₂
      obtain ⟨m₁, hm₁, hmirrors⟩ := hmirrors₁ c l k hends
      exact ⟨m₁, hm₁, hmirrors'.agree hmirrors⟩

end Machine

theorem Interpreter.uniform_runtime (maxDepth : Nat) :
    (standard maxDepth).runtime.Uniform {.dict ⟨0⟩} := by
  rw [standard, runtime_new]
  exact ⟨fun _ f hf => (Option.some_ne_none f hf.symm).elim, Registry.uniform_standard⟩

def Interpreter.withArgument : Heap :=
  let o := HostOp.ofPairs [("x", .bool true)]
  (o.run (standard 100).heap).1.keep (o.run (standard 100).heap).2

theorem Reachable.withArgument :
    Reachable (Interpreter.standard 100).runtime Interpreter.withArgument :=
  .change (.ofPairs [("x", .bool true)]) (.standard 100)
    (List.forall_mem_singleton.mpr (has_of_refs rfl)) trivial

theorem Heap.reached_withArgument : Interpreter.withArgument.Reached := by
  refine ⟨100, Registry.standard, fun _ => none,
    .tail (.single (.operation (.ofPairs [("x", .bool true)]) ?_)) (.hold _ _)⟩
  exact List.forall_mem_singleton.mpr fun r hr => (List.not_mem_nil hr).elim

theorem Interpreter.slots_withArgument :
    withArgument.slots ⟨20⟩ = [("x", .bool true)] := by
  have hsize : (standard 100).heap.dicts.size = 20 := by decide +kernel
  have hkey : Key.of "x" = .slot "x" := by decide
  have hmade : ∀ h : Heap, (h.ofPairs [("x", .bool true)]).2 =
      (h.newDict { slots := Slots.empty.put "x" (.bool true) }).1 := by
    intro h
    simp only [ofPairs, defineAll, define, hkey]
    exact put_newDict rfl "x" (.bool true)
  have hcell : withArgument.cell ⟨20⟩ = { slots := Slots.empty.put "x" (.bool true) } := by
    have hheap : withArgument.dicts = ((standard 100).heap.ofPairs [("x", .bool true)]).2.dicts := by
      simp only [withArgument, HostOp.run, keep]
      split <;> rename_i heq <;> rw [heq]
    rw [cell_congr hheap, hmade, cell_newDict, if_pos hsize.symm]
  rw [slots, owner, hcell, Option.getD_none, hcell]
  rfl

def Block.identity : Block := ⟨0, none, ["x"], [.sym "x"], ⟨0⟩, none⟩

/-- The block is given true in both ways. -/
theorem Machine.call_agrees_evalWithin_identity : ∃ rt h n₁ n₂ frame₁ frame₂,
    let called := call rt [] 0 [] h ⟨0⟩ Block.identity [.bool true]
    let applied := evalWithin rt [] 0 [] h ⟨0⟩ ⟨20⟩ (.block Block.identity)
    (called.run rt n₁).BeginsIn Block.identity frame₁ [] ∧
    (applied.run rt n₂).BeginsIn Block.identity frame₂ [] ∧
    ((called.run rt n₁).heap.cell frame₁).slots.toList = [("x", .bool true)] ∧
    ((applied.run rt n₂).heap.cell frame₂).slots.toList = [("x", .bool true)] ∧
    ∀ m₁, Returns rt [] called m₁ →
      ∃ m₂ f aside, Returns rt [] applied m₂ ∧ m₂.Agree f aside m₁ := by
  have hlawful := Interpreter.lawful_standard 100
  have hroot : Ref.dict ⟨0⟩ ∈ Interpreter.withArgument.held := by decide +kernel
  have hd : Ref.dict ⟨20⟩ ∈ Interpreter.withArgument.held := by decide +kernel
  have hK : {Ref.dict ⟨0⟩} ⊆ Interpreter.withArgument.everything := by
    rintro r rfl
    exact (Reachable.withArgument.kept hlawful).good.known _ hroot
  have hb : Has Interpreter.withArgument.heldRefs (.block Block.identity) := by
    intro r hr
    obtain rfl : r = .dict ⟨0⟩ := by
      simpa [Block.identity, Value.refs, blockRefs, allRefs] using hr
    exact hroot
  have hparams : Fixed Block.identity.params := by
    refine List.forall_mem_singleton.mpr ⟨by decide, ?_⟩
    unfold Ordinary
    decide
  have hvs : ∀ v ∈ [Value.bool true], Has Interpreter.withArgument.heldRefs v :=
    List.forall_mem_singleton.mpr (has_of_refs rfl)
  obtain ⟨hbody, f, aside, -, -, -, hagree, -⟩ :=
    call_agrees_evalWithin (e := ⟨0⟩) (d := ⟨20⟩) hlawful (Interpreter.tame_runtime 100)
      (Interpreter.uniform_runtime 100) (Reachable.withArgument.kept hlawful)
      Heap.reached_withArgument.region hK hparams (by decide) (by decide) hroot hd hb hvs
      Interpreter.slots_withArgument [] 0 []
  have hdepth : 0 < (Interpreter.standard 100).runtime.maxDepth := by
    rw [Interpreter.standard, Interpreter.runtime_new]
    decide
  obtain ⟨n₁, n₂, frame₁, frame₂, hbegins₁, hbegins₂, hcell₁, hcell₂⟩ := hbody hdepth
  refine ⟨_, _, n₁, n₂, frame₁, frame₂, hbegins₁, hbegins₂, ?_, ?_, fun m₁ hm₁ => ?_⟩
  · rw [hcell₁]
    rfl
  · rw [hcell₂]
    rfl
  · obtain ⟨m₂, hm₂, hsame⟩ := hagree m₁ hm₁
    exact ⟨m₂, f, aside, hm₂, hsame⟩

end DictScript
