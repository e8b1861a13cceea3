import DictScript.Interpreter
import DictScript.Proofs.Frozen.RoundTrip

/-!
Host functions in a frozen graph. A function is written as its name alone. It is read back as the
primitive of that name, or as the function that the scope of the thaw has under it.
-/
namespace DictScript

/-- What a function becomes when all that is kept of it is its name. -/
def Code.named (name : String) (code : Code) : Code :=
  ((Primitive.ofName? name).map Code.primitive).getD code

namespace Heap
variable {h k : Heap} {b : Block} {d e root : DictId} {l : ListId} {n : NativeId} {code : Code}
variable {f : String} {params : List String} {registry : Registry}
variable {t t' : Thawer} {ts rest : List Token}

structure HostBlock (h : Heap) (b : Block) (f : String) (params : List String) (code : Code) :
    Prop where
  name : b.name = some f
  params : b.params = params
  body : ∃ n, b.body = [.native n] ∧ h.native? n = some (.function f code)
  allocated : b.env.index < h.dicts.size
  env : h.cell b.env = {}

def recordTokens (f : String) : List Token :=
  [.mark .dictOpen, .str tagKey, .str functionTag, .str "name", .str f, .mark .dictClose]

def functionTokens (f : String) (params : List String) : List Token :=
  .mark .blockOpen :: .str f :: .mark .listOpen :: (params.map .sym ++ .mark .listClose ::
    .mark .dictOpen :: .mark .dictClose :: .mark .listOpen :: (recordTokens f ++
      [.mark .listClose, .mark .blockClose]))

theorem readable_functionTokens : ∀ t ∈ functionTokens f params, t.Readable := by
  have hmark := Token.readable_mark
  have hrecord : ∀ t ∈ recordTokens f, t.Readable := by
    simp [recordTokens, hmark, Token.readable_str]
  simp only [functionTokens, List.forall_mem_cons, List.forall_mem_append, List.forall_mem_map]
  exact ⟨hmark _, Token.readable_str f, hmark _, fun p _ => Token.readable_sym p, hmark _, hmark _,
    hmark _, hmark _, hrecord, hmark _, hmark _, List.forall_mem_nil _⟩

theorem HostBlock.grown (hb : h.HostBlock b f params code) (hk : Widened h k) :
    k.HostBlock b f params code := by
  obtain ⟨n, hbody, hn⟩ := hb.body
  exact ⟨hb.name, hb.params, ⟨n, hbody, native?_mono hk.natives hn⟩,
    hb.allocated.trans_le hk.dicts, (hk.cell _ hb.allocated (by simp)).trans hb.env⟩

/-! Freezing. -/

theorem foldl_emit_syms (params : List String) (s : Freezer) :
    params.foldl (fun s p => s.emit (.sym p)) s =
      { s with out := (params.map Token.sym).reverse ++ s.out } := by
  induction params generalizing s with
  | nil => rfl
  | cons p params ih =>
    rw [List.foldl_cons, ih]
    simp [Freezer.emit]

theorem freeze_hostBlock (hb : h.HostBlock b f params code) :
    h.freeze (.block b) = .ok (functionTokens f params) := by
  obtain ⟨n, hbody, hn⟩ := hb.body
  have howner : h.owner b.env = b.env := by rw [owner, hb.env]; rfl
  have hslots : h.slots b.env = [] := by rw [slots, howner, hb.env]; rfl
  have htag : (h.cell b.env).tag = none := by rw [hb.env]
  obtain ⟨id, name, ps, body, env, receiver⟩ := b
  obtain rfl : name = some f := hb.name
  obtain rfl : ps = params := hb.params
  obtain rfl : body = [.native n] := hbody
  simp only at howner hslots htag
  have hother : (Ref.native n == Ref.dict env) = false := rfl
  rw [freeze, Value.freeze, freezeBlock]
  simp only [foldl_emit_syms]
  simp [freezeAll, Value.freeze, freezeObject, freezable, freezeContent, freezeEntries, freezeSlots,
    howner, hslots, htag, hn, hother, Native.record, Freezer.openMark, Freezer.emit, Except.map,
    functionTokens, recordTokens, List.lookup]

/-! Thawing. -/

section
variable (registry : Registry) (scope : Option DictId) (fuel : Nat) (inert : Bool)

/-- The symbols are read one after the other into the list. -/
theorem gives_symbols (names : List String) (hfuel : names.length < fuel)
    (hl : l.index < t.heap.lists.size)
    (hrest : t.rest = names.map .sym ++ .mark .listClose :: rest) :
    ∃ t', Thaw.Gives (Thaw.items registry scope fuel inert l) t () t' ∧ t'.rest = rest ∧
      WidenedBut (some (.list l)) t.heap t'.heap ∧
      t'.heap.items l = t.heap.items l ++ names.map .sym := by
  induction names generalizing fuel t with
  | nil =>
    obtain ⟨fuel, rfl⟩ : ∃ m, fuel = m + 1 := ⟨fuel - 1, by omega⟩
    refine ⟨{ t with rest := rest }, ?_, rfl, .of_same rfl rfl List.prefix_rfl, by simp⟩
    rw [Thaw.items]
    exact (Thaw.gives_close hrest).bind (Thaw.gives_pure _ _)
  | cons p names ih =>
    rw [List.length_cons] at hfuel
    obtain ⟨fuel, rfl⟩ : ∃ m, fuel = m + 2 := ⟨fuel - 2, by omega⟩
    let t₀ : Thawer := { t with rest := names.map .sym ++ .mark .listClose :: rest }
    let t₁ : Thawer := { t₀ with heap := t.heap.pushItem l (.sym p) }
    have hpush : WidenedBut (some (.list l)) t.heap t₁.heap :=
      (grownBut_pushItem hl).widened rfl
    obtain ⟨t', hrun, hrest', hgrown, hitems⟩ :=
      ih (fuel + 1) (t := t₁) (by omega) (hl.trans_le hpush.lists) rfl
    refine ⟨t', ?_, hrest', hpush.trans hgrown, ?_⟩
    · rw [Thaw.items]
      refine (Thaw.gives_close_false hrest (by simp)).bind ?_
      refine Thaw.Gives.bind (a := .sym p) ?_ ((Thaw.gives_change _ t₀).bind hrun)
      rw [Thaw.value]
      exact (Thaw.gives_next hrest).bind (Thaw.gives_pure _ _)
    · rw [hitems, items_pushItem hl, if_pos rfl]
      simp

/-- An opening bracket makes a new list, which is filled with the items. -/
theorem gives_list {P : List Value → Heap → Prop} (hrest : t.rest = .mark .listOpen :: ts)
    (hitems : ∀ t₁ l, t₁.rest = ts → l.index < t₁.heap.lists.size → t₁.heap.items l = [] →
      Widened t.heap t₁.heap → ∃ vs t',
        Thaw.Gives (Thaw.items registry scope fuel inert l) t₁ () t' ∧ t'.rest = rest ∧
        WidenedBut (some (.list l)) t₁.heap t'.heap ∧ t'.heap.items l = vs ∧ P vs t'.heap) :
    ∃ l vs t', Thaw.Gives (Thaw.value registry scope (fuel + 1) inert) t (.list l) t' ∧
      t'.rest = rest ∧ Widened t.heap t'.heap ∧ t'.heap.items l = vs ∧ P vs t'.heap := by
  let l : ListId := ⟨t.heap.lists.size⟩
  let t₁ : Thawer :=
    { heap := (t.heap.newList []).1.hold (.list l), rest := ts, table := t.table.push (.list l) }
  have hgrown : Widened t.heap t₁.heap :=
    ((grown_newList t.heap []).trans (.of_same (lists_hold _ _) (dicts_hold _ _))).widened
      (natives_hold _ _)
  have hempty : t₁.heap.items l = [] :=
    (items_congr (lists_hold _ _)).trans (items_newList_self t.heap [])
  have hnew : ¬ t.heap.Allocated (.list l) := Nat.lt_irrefl _
  obtain ⟨vs, t', hrun, hrest', hfilled, hvs, hP⟩ :=
    hitems t₁ l rfl (by simp [t₁, l, newList]) hempty hgrown
  refine ⟨l, vs, t', ?_, hrest', .of_newer hnew hgrown hfilled, hvs, hP⟩
  rw [Thaw.value]
  refine (Thaw.gives_next hrest).bind ?_
  refine (Thaw.gives_create _ _).bind ?_
  refine (Thaw.gives_register _ _).discard.bind ?_
  exact hrun.bind (Thaw.gives_pure _ _)

/-- Braces with nothing between them make a new dictionary. -/
theorem gives_emptyDict (hrest : t.rest = .mark .dictOpen :: .mark .dictClose :: rest) :
    ∃ e t', Thaw.Gives (Thaw.value registry scope (fuel + 2) inert) t (.dict e) t' ∧
      t'.rest = rest ∧ Widened t.heap t'.heap := by
  let e : DictId := ⟨t.heap.dicts.size⟩
  let t₁ := openDict t (if inert then none else scope) (.mark .dictClose :: rest)
  have hcell : t₁.heap.cell e = { parent := if inert then none else scope } := by
    rw [cell_openDict, if_pos rfl]
  have hholds : t₁.heap.holds e tagKey = false := by
    rw [(get_holds (by decide) (by rw [hcell])).1, hcell]
    rfl
  refine ⟨e, { t₁ with rest := rest }, ?_, rfl, grown_openDict (t := t)⟩
  rw [Thaw.value]
  refine (Thaw.gives_next hrest).bind ?_
  refine (Thaw.gives_create _ _).bind ?_
  refine (Thaw.gives_register _ _).bind ?_
  have hfinish : Thaw.Gives (Thaw.finishDict registry scope t.table.size e)
      { t₁ with rest := rest } (.dict e) { t₁ with rest := rest } := Thaw.gives_finishDict hholds
  refine Thaw.Gives.bind (a := ()) ?_ hfinish
  rw [Thaw.entries]
  exact (Thaw.gives_close (t := t₁) rfl).bind (Thaw.gives_pure _ _)

/-- A text is read into the dictionary. -/
theorem gives_entry {key text : String} (hkey : Key.of key = .slot key)
    (hrest : t.rest = .str key :: .str text :: rest)
    (hmore : Thaw.Gives (Thaw.entries registry scope (fuel + 1) inert d)
      { t with heap := t.heap.put d key (.str text), rest := rest } () t') :
    Thaw.Gives (Thaw.entries registry scope (fuel + 2) inert d) t () t' := by
  rw [Thaw.entries]
  refine (Thaw.gives_close_false hrest (by simp)).bind ?_
  refine (Thaw.gives_next hrest).bind ?_
  have htext : Thaw.Gives (Thaw.value registry scope (fuel + 1) inert)
      { t with rest := .str text :: rest } (.str text) { t with rest := rest } := by
    rw [Thaw.value]
    exact (Thaw.gives_next rfl).bind (Thaw.gives_pure _ _)
  exact htext.bind ((Thaw.gives_onHeap (define_slot hkey)).bind hmore)

end

structure Offers (h : Heap) (d : DictId) (f : String) (code : Code) : Prop where
  allocated : d.index < h.dicts.size
  own : (h.cell d).target = none
  bound : ∃ b n, h.get d f = .block b ∧ b.body = [.native n] ∧ h.native? n = some (.function f code)

theorem get_eq_block {v : Block} (hv : h.get d f = .block v) :
    ∃ m, Key.of f = .slot m ∧ (h.slots d).lookup m = some (.block v) := by
  have hlink : ∀ link, linkValue link ≠ .block v := by
    intro link
    cases link <;> simp [linkValue]
  rw [get] at hv
  cases hkey : Key.of f with
  | parent | caller =>
    rw [hkey] at hv
    exact (hlink _ hv).elim
  | slot m =>
    rw [hkey] at hv
    cases hm : (h.slots d).lookup m with
    | none => simp [hm] at hv
    | some w => exact ⟨m, rfl, hm.trans (congrArg some (by simpa [hm] using hv))⟩

theorem Offers.grown (hd : h.Offers d f code) (hk : Widened h k) : k.Offers d f code := by
  have hcell : k.cell d = h.cell d := hk.cell d hd.allocated (by simp)
  obtain ⟨b, n, hget, hbody, hn⟩ := hd.bound
  obtain ⟨m, hkey, hm⟩ := get_eq_block hget
  have hslots : k.slots d = h.slots d := by
    simp only [slots, owner, hcell, hd.own, Option.getD_none]
  refine ⟨hd.allocated.trans_le hk.dicts, hcell ▸ hd.own, b, n, ?_, hbody,
    native?_mono hk.natives hn⟩
  rw [get, hkey]
  simp only [hslots, hm, Option.getD_some]

/-- What a dictionary has under a name itself is found first. -/
theorem resolve_eq_block {v : Block} (hv : h.get d f = .block v) : h.resolve d f = .block v := by
  obtain ⟨m, hkey, hm⟩ := get_eq_block hv
  have hholds : h.holds d f = true := by simp [holds, hkey, hm]
  rw [resolve, find, findFrom, if_pos hholds]
  exact hv

theorem Offers.defrostFunction (hd : h.Offers d f code) (hname : h.get e "name" = .str f) :
    ∃ m k, Registry.defrostFunction h e (some d) = (.ok (.native m), k) ∧ Widened h k ∧
      k.native? m = some (.function f (code.named f)) := by
  obtain ⟨b, n, hget, hbody, hn⟩ := hd.bound
  simp only [Registry.defrostFunction, hname, Code.named]
  cases Primitive.ofName? f with
  | some p =>
    refine ⟨_, _, rfl, .of_same rfl rfl (by simp [newNative]), ?_⟩
    simp [native?, newNative]
  | none =>
    have hsole : Registry.soleNative? (h.resolve d f) = some n := by
      rw [resolve_eq_block hget, Registry.soleNative?, hbody]
    simp only [Option.bind_some, hsole]
    exact ⟨n, h, rfl, .of_same rfl rfl List.prefix_rfl, hn⟩

/-- The record of a function is read as the function that its name stands for. -/
theorem gives_record (fuel : Nat) (inert : Bool)
    (hregistry : registry.lookup functionTag = some Registry.defrostFunction)
    (hroot : t.heap.Offers root f code) (hrest : t.rest = recordTokens f ++ rest) :
    ∃ m t', Thaw.Gives (Thaw.value registry (some root) (fuel + 4) inert) t (.native m) t' ∧
      t'.rest = rest ∧ Widened t.heap t'.heap ∧
      t'.heap.native? m = some (.function f (code.named f)) := by
  let e : DictId := ⟨t.heap.dicts.size⟩
  let parent := if inert then none else some root
  let t₁ := openDict t parent
    (.str tagKey :: .str functionTag :: .str "name" :: .str f :: .mark .dictClose :: rest)
  let h₂ := t₁.heap.put e tagKey (.str functionTag)
  let h₃ := h₂.put e "name" (.str f)
  have hopened : t₁.heap.cell e = { parent := parent } := by rw [cell_openDict, if_pos rfl]
  have hnew : e.index < t₁.heap.dicts.size := by simp [t₁, e, openDict, newDict]
  -- the two texts are slots of the new dictionary
  have hput : ∀ {a : Heap} {c : DictCell} (key : String) (v : Value), e.index < a.dicts.size →
      a.cell e = c → c.target = none →
      WidenedBut (some (.dict e)) a (a.put e key v) ∧
        (a.put e key v).cell e = { c with slots := c.slots.put key v } := by
    intro a c key v he hc htarget
    have howner : a.owner e = e := by rw [owner, hc, htarget]; rfl
    rw [put, howner]
    exact ⟨(grownBut_modifyCell he).widened rfl, by rw [cell_modifyCell he, if_pos rfl, hc]⟩
  obtain ⟨hgrown₂, hcell₂⟩ := hput tagKey (.str functionTag) hnew hopened rfl
  obtain ⟨hgrown₃, hcell₃⟩ :=
    hput "name" (.str f) (hnew.trans_le hgrown₂.dicts) hcell₂ rfl
  have hgrown : Widened t.heap h₃ :=
    .of_newer (r := .dict e) (Nat.lt_irrefl _) (grown_openDict (t := t)) (hgrown₂.trans hgrown₃)
  have hslots : (h₃.cell e).slots.toList = [(tagKey, .str functionTag), ("name", .str f)] := by
    rw [hcell₃]
    rfl
  have htarget : (h₃.cell e).target = none := by rw [hcell₃]
  obtain ⟨hholds, htag⟩ := get_holds (n := tagKey) (by decide) htarget
  have hname := (get_holds (n := "name") (by decide) htarget).2
  rw [hslots] at hholds htag hname
  -- so the defroster of functions gets the name
  obtain ⟨m, k, hdefrost, hmade, hm⟩ := (hroot.grown hgrown).defrostFunction (e := e) hname
  let t' : Thawer :=
    { heap := (k.letGo e).hold (.native m), rest := rest,
      table := t₁.table.set! t.table.size (.native m) }
  have hnatives : t'.heap.natives = k.natives := by simp [t']
  refine ⟨m, t', ?_, rfl, (hgrown.trans hmade).trans ?_, native?_mono (by simp [hnatives]) hm⟩
  · rw [Thaw.value]
    refine (Thaw.gives_next hrest).bind ?_
    refine (Thaw.gives_create _ _).bind ?_
    refine (Thaw.gives_register _ _).bind ?_
    have hfilled : Thaw.Gives (Thaw.entries registry (some root) (fuel + 3) inert e) t₁ ()
        { t₁ with heap := h₃, rest := rest } := by
      refine gives_entry _ _ _ _ (by decide) rfl (gives_entry _ _ _ _ (by decide) rfl ?_)
      rw [Thaw.entries]
      exact (Thaw.gives_close rfl).bind (Thaw.gives_pure _ _)
    refine hfilled.bind (Thaw.gives_finishDict_tagged hholds htag ?_)
    rw [Registry.defrost, hregistry]
    exact hdefrost
  · exact .of_same (by simp [t']) (by simp [t']) (by simp [hnatives])

/-- The block of a function is read as a block of the function that its name stands for. -/
theorem gives_hostBlock (fuel : Nat) (inert : Bool)
    (hregistry : registry.lookup functionTag = some Registry.defrostFunction)
    (hroot : t.heap.Offers root f code) (hfuel : params.length + 6 < fuel)
    (hrest : t.rest = functionTokens f params ++ rest) :
    ∃ b m t', Thaw.Gives (Thaw.value registry (some root) (fuel + 1) inert) t (.block b) t' ∧
      t'.rest = rest ∧ b.name = some f ∧ b.params = params ∧ b.body = [.native m] ∧
      t'.heap.native? m = some (.function f (code.named f)) := by
  obtain ⟨fuel, rfl⟩ : ∃ m, fuel = m + 6 := ⟨fuel - 6, by omega⟩
  simp only [functionTokens, List.cons_append, List.append_assoc, List.nil_append] at hrest
  -- the parameters
  let ts := .mark .listOpen :: (params.map .sym ++ .mark .listClose :: .mark .dictOpen ::
    .mark .dictClose :: .mark .listOpen :: (recordTokens f ++ .mark .listClose ::
      .mark .blockClose :: rest))
  let t₀ : Thawer := { t with rest := .str f :: ts }
  let t₁ : Thawer := { t with rest := ts }
  obtain ⟨l, ps, t₂, hrun₂, hrest₂, hgrown₂, hps, rfl⟩ :=
    gives_list registry (some root) (fuel + 5) inert (t := t₁)
      (P := fun vs _ => vs = params.map .sym) rfl fun t₁ l hrest hl hempty _ => by
        obtain ⟨t', hrun, hrest', hgrown, hitems⟩ :=
          gives_symbols registry (some root) (fuel + 5) inert params (by omega) hl hrest
        exact ⟨_, t', hrun, hrest', hgrown, rfl, by rw [hitems, hempty, List.nil_append]⟩
  -- the environment
  obtain ⟨e, t₃, hrun₃, hrest₃, hgrown₃⟩ :=
    gives_emptyDict registry (some root) (fuel + 4) inert hrest₂
  let t₄ : Thawer := { t₃ with heap := t₃.heap.hold (.dict e) }
  have hgrown₄ : Widened t.heap t₄.heap :=
    (hgrown₂ : Widened t.heap _).trans
      (hgrown₃.trans (.of_same (by simp [t₄]) (by simp [t₄]) (by simp [t₄])))
  -- the body
  obtain ⟨l', vs, t₅, hrun₅, hrest₅, hgrown₅, hvs, m, rfl, hm⟩ :=
    gives_list registry (some root) (fuel + 5) inert (t := t₄)
      (P := fun vs k => ∃ m, vs = [.native m] ∧
        k.native? m = some (.function f (code.named f))) hrest₃
      fun t₁ l hrest hl hempty hgrown => by
        obtain ⟨m, t', hrun, hrest', hgrown', hm⟩ :=
          gives_record fuel inert hregistry (hroot.grown (hgrown₄.trans hgrown)) hrest
        have hl' : l.index < t'.heap.lists.size := hl.trans_le hgrown'.lists
        have hpush : WidenedBut (some (.list l)) t'.heap (t'.heap.pushItem l (.native m)) :=
          (grownBut_pushItem hl').widened rfl
        let t₂ : Thawer := { t' with heap := t'.heap.pushItem l (.native m) }
        refine ⟨_, { t₂ with rest := .mark .blockClose :: rest }, ?_, rfl, hgrown'.but.trans hpush,
          rfl, m, ?_, native?_mono hpush.natives hm⟩
        · rw [Thaw.items]
          refine (Thaw.gives_close_false hrest (by simp)).bind ?_
          refine hrun.bind ?_
          refine (Thaw.gives_change _ _).bind ?_
          rw [Thaw.items]
          exact (Thaw.gives_close (t := t₂) hrest').bind (Thaw.gives_pure _ _)
        · rw [items_pushItem hl', if_pos rfl, hgrown'.items l hl (by simp), hempty]
          rfl
  let t₆ : Thawer := { t₅ with heap := t₅.heap.letGo e, rest := rest }
  let b : Block :=
    { id := 0, name := some f, params := params, body := [.native m], env := e, receiver := none }
  refine ⟨{ b with id := t₆.heap.blocks }, m, { t₆ with heap := (t₆.heap.newBlock b).1 }, ?_, rfl,
    rfl, rfl, rfl, native?_mono (by simp [t₆, newBlock]) hm⟩
  rw [Thaw.value]
  refine (Thaw.gives_next hrest).bind ?_
  refine (Thaw.gives_blockName (t := t₀) (rfl : _ = blockNameToken (some f) :: _)).bind ?_
  refine hrun₂.bind ?_
  refine (Thaw.gives_paramNames hps).bind ?_
  refine hrun₃.bind ?_
  refine (Thaw.gives_blockEnv _ _ _).bind ?_
  refine (Thaw.gives_change _ _).bind ?_
  refine hrun₅.bind ?_
  refine (Thaw.gives_blockBody hvs).bind ?_
  refine (Thaw.gives_change _ _).bind ?_
  refine (Thaw.gives_close (t := { t₅ with heap := t₅.heap.letGo e }) hrest₅).bind ?_
  rw [if_pos rfl]
  exact Thaw.gives_create _ _

/-- Thawing the block of a function in an environment that has the function makes a block of the
function that its name stands for. -/
theorem thaw_hostBlock (params : List String)
    (hregistry : registry.lookup functionTag = some Registry.defrostFunction)
    (hroot : h.Offers root f code) :
    ∃ b m k, h.thaw registry (.arr ((functionTokens f params).map Token.toJson)) (some root) =
        (.ok (.block b), k) ∧ b.name = some f ∧ b.params = params ∧ b.body = [.native m] ∧
      k.native? m = some (.function f (code.named f)) := by
  let t : Thawer := { heap := h.enter [], rest := functionTokens f params }
  have htokens : ((functionTokens f params).map Token.toJson).map Token.ofJson =
      functionTokens f params := by
    rw [List.map_map]
    exact (List.map_congr_left readable_functionTokens).trans (List.map_id _)
  have hlength : params.length + 6 < 2 * (functionTokens f params).length + 1 := by
    simp [functionTokens, recordTokens]
    omega
  obtain ⟨b, m, t', hrun, hrest, hname, hparams, hbody, hm⟩ :=
    gives_hostBlock (t := t) _ false hregistry
      (hroot.grown (.of_same rfl rfl List.prefix_rfl)) hlength (List.append_nil _).symm
  refine ⟨b, m, t'.heap.leave, ?_, hname, hparams, hbody, hm⟩
  have hwhole : Thaw.Gives (Thaw.whole registry (some root) (functionTokens f params).length) t
      (.block b) t' := by
    refine hrun.bind ((Thaw.gives_get _).bind ?_)
    simp only [hrest]
    exact Thaw.gives_pure _ _
  rw [thaw, htokens, thawTokens, show (Thaw.whole _ _ _).run.run t = _ from hwhole]

end Heap

/-! Installing functions. -/

structure HostBinding where
  name : String
  params : List String
  code : Code

namespace Heap
variable {f g : HostBinding} {fs : List HostBinding} {h k : Heap} {root : DictId}

def LastBound (h : Heap) (fs : List HostBinding) (m : String) (v : Value) : Prop :=
  ∃ before f after b, fs = before ++ f :: after ∧ Key.of f.name = .slot m ∧
    (∀ g ∈ after, Key.of g.name ≠ .slot m) ∧ v = .block b ∧ h.HostBlock b f.name f.params f.code

theorem LastBound.snoc {m : String} {v : Value} (hv : h.LastBound fs m v)
    (hg : Key.of g.name ≠ .slot m)
    (hkeep : ∀ b f params code, h.HostBlock b f params code → k.HostBlock b f params code) :
    k.LastBound (fs ++ [g]) m v := by
  obtain ⟨before, f, after, b, rfl, hf, hafter, rfl, hb⟩ := hv
  refine ⟨before, f, after ++ [g], b, by simp, hf, ?_, rfl, hkeep _ _ _ _ hb⟩
  exact List.forall_mem_append.mpr ⟨hafter, List.forall_mem_singleton.mpr hg⟩

structure Installed (h : Heap) (root : DictId) (fs : List HostBinding) : Prop where
  allocated : root.index < h.dicts.size
  own : (h.cell root).target = none
  tag : (h.cell root).tag = some rootTag
  slots : ∀ m v, (h.cell root).slots.toList.lookup m = some v → h.LastBound fs m v

theorem HostBlock.modifyRoot {b : Block} {name : String} {params : List String} {code : Code}
    {change : DictCell → DictCell} (hb : h.HostBlock b name params code)
    (hroot : root.index < h.dicts.size) (htag : (h.cell root).tag = some rootTag) :
    (h.modifyCell root change).HostBlock b name params code := by
  have hne : b.env ≠ root := by
    intro heq
    rw [← heq, hb.env] at htag
    cases htag
  refine ⟨hb.name, hb.params, hb.body, by simpa [modifyCell] using hb.allocated, ?_⟩
  rw [cell_modifyCell hroot, if_neg hne, hb.env]

theorem Installed.grown (hi : h.Installed root fs) (hk : Widened h k)
    (hg : ∀ m, Key.of g.name ≠ .slot m) : k.Installed root (fs ++ [g]) := by
  have hcell : k.cell root = h.cell root := hk.cell _ hi.allocated (by simp)
  refine ⟨hi.allocated.trans_le hk.dicts, hcell ▸ hi.own, hcell ▸ hi.tag, fun m v hv => ?_⟩
  rw [hcell] at hv
  exact (hi.slots m v hv).snoc (hg m) fun _ _ _ _ hb => hb.grown hk

/-- The new block takes the place of what the name had before. -/
theorem Installed.put {b : Block} {n : String} (hi : h.Installed root fs) (hk : Widened h k)
    (hb : k.HostBlock b f.name f.params f.code) (hf : Key.of f.name = .slot n) :
    (k.put root n (.block b)).Installed root (fs ++ [f]) := by
  have hcell : k.cell root = h.cell root := hk.cell _ hi.allocated (by simp)
  have hallocated : root.index < k.dicts.size := hi.allocated.trans_le hk.dicts
  have htag : (k.cell root).tag = some rootTag := hcell ▸ hi.tag
  have howner : k.owner root = root := by rw [owner, hcell, hi.own]; rfl
  rw [Heap.put, howner]
  generalize hbind : (fun c : DictCell => { c with slots := c.slots.put n (.block b) }) = bind
  have hroot : (k.modifyCell root bind).cell root =
      { h.cell root with slots := (h.cell root).slots.put n (.block b) } := by
    rw [cell_modifyCell hallocated, if_pos rfl, hcell, ← hbind]
  have hkeep : ∀ c name params code, k.HostBlock c name params code →
      (k.modifyCell root bind).HostBlock c name params code :=
    fun _ _ _ _ hc => hc.modifyRoot hallocated htag
  refine ⟨by simpa [modifyCell] using hallocated, by rw [hroot, hi.own], by rw [hroot, hi.tag],
    fun m v hv => ?_⟩
  rw [hroot] at hv
  simp only [Slots.put, lookup_putSlot] at hv
  by_cases hm : m = n
  · rw [if_pos hm] at hv
    cases hv
    exact ⟨fs, f, [], b, rfl, hm ▸ hf, List.forall_mem_nil _, rfl, hkeep _ _ _ _ hb⟩
  · rw [if_neg hm] at hv
    refine (hi.slots m v hv).snoc (fun heq => hm ?_)
      fun _ _ _ _ hc => hkeep _ _ _ _ (hc.grown hk)
    exact (Key.slot.inj (hf.symm.trans heq)).symm

/-- A block that the root environment has under the block's own name is that of the last function
that was installed under the name. -/
theorem Installed.exists_hostBlock {b : Block} {name : String} (hi : h.Installed root fs)
    (hbound : h.get root name = .block b) (hname : b.name = some name) :
    ∃ f, fs.reverse.find? (fun f => f.name = name) = some f ∧
      h.HostBlock b name f.params f.code ∧ h.Offers root name f.code := by
  obtain ⟨s, hkey, hs⟩ := get_eq_block hbound
  rw [Heap.slots, owner, hi.own, Option.getD_none] at hs
  obtain ⟨before, f, after, b', rfl, hf, hafter, hb', hb⟩ := hi.slots s _ hs
  obtain rfl : b = b' := Value.block.inj hb'
  obtain rfl : name = f.name := Option.some.inj (hname.symm.trans hb.name)
  have hnone : after.reverse.find? (fun g => g.name = f.name) = none := by
    rw [List.find?_eq_none]
    intro g hg hsame
    exact hafter g (List.mem_reverse.mp hg) (of_decide_eq_true hsame ▸ hf)
  refine ⟨f, ?_, hb, hi.allocated, hi.own, b, ?_⟩
  · rw [List.reverse_append, List.reverse_cons, List.append_assoc, List.find?_append, hnone]
    simp
  · obtain ⟨n, hbody, hn⟩ := hb.body
    exact ⟨n, hbound, hbody, hn⟩

end Heap

namespace Interpreter
open Heap
variable {i : Interpreter} {fs : List HostBinding}

def install (i : Interpreter) (f : HostBinding) : Interpreter :=
  i.defineNative f.name f.params f.code

def builtins : List HostBinding := Primitive.table.map fun (p, name, params) =>
  { name := name, params := params, code := .primitive p }

def bare (maxDepth : Nat) (registry : Registry) (functions : String → Option HostFunction) :
    Interpreter :=
  let (h, root) := ({} : Heap).newDict { name := some "root", tag := some rootTag }
  { runtime :=
      { root := root, maxDepth := maxDepth, registry := registry, functions := functions }
    heap := { h with roots := [.dict root] } }

theorem new_eq (maxDepth : Nat) (registry : Registry) (functions : String → Option HostFunction) :
    new maxDepth registry functions =
      builtins.foldl install (bare maxDepth registry functions) := by
  rw [builtins, List.foldl_map]
  rfl

theorem installed_bare (maxDepth : Nat) (registry : Registry)
    (functions : String → Option HostFunction) :
    (bare maxDepth registry functions).heap.Installed ⟨0⟩ [] :=
  ⟨Nat.zero_lt_one, rfl, rfl, fun m v hv => by cases hv⟩

/-- A new block of the function is bound to its name. -/
theorem exists_install (i : Interpreter) (f : HostBinding) :
    ∃ b k, Widened i.heap k ∧ k.HostBlock b f.name f.params f.code ∧
      (i.install f).heap = (k.define i.root f.name (.block b)).2 := by
  obtain ⟨rt, h, log⟩ := i
  let b : Block :=
    { id := h.blocks, name := some f.name, params := f.params, body := [.native ⟨h.natives.size⟩],
      env := ⟨h.dicts.size⟩, receiver := none }
  let k : Heap :=
    { h with
      natives := h.natives.push (.function f.name f.code), dicts := h.dicts.push {}
      blocks := h.blocks + 1 }
  refine ⟨b, k, ⟨(grown_newDict h {}).trans (.of_same rfl rfl), by simp [k]⟩, ?_, rfl⟩
  refine ⟨rfl, rfl, ⟨⟨h.natives.size⟩, rfl, ?_⟩, by simp [k, b], ?_⟩
  · simp [k, Heap.native?]
  · exact (cell_newDict h {}).trans (if_pos rfl)

theorem installed_install (hi : i.heap.Installed i.root fs) (f : HostBinding) :
    (i.install f).heap.Installed i.root (fs ++ [f]) := by
  obtain ⟨b, k, hgrown, hb, hinstall⟩ := exists_install i f
  rw [hinstall]
  cases hkey : Key.of f.name with
  | parent | caller =>
    -- a block is no link, so nothing is bound
    simp only [define, hkey]
    exact hi.grown hgrown (by simp [hkey])
  | slot n =>
    simp only [define, hkey]
    exact hi.put hgrown hb hkey

/-- What is installed is found under its name, unless the name is that of a link. -/
theorem get_install {f : HostBinding} {n : String} (hi : i.heap.Installed i.root fs)
    (hf : Key.of f.name = .slot n) :
    ∃ b, (i.install f).heap.get i.root f.name = .block b ∧ b.name = some f.name := by
  obtain ⟨b, k, hgrown, hb, hinstall⟩ := exists_install i f
  have hdefine : (k.define i.root f.name (.block b)).2 = k.put i.root n (.block b) := by
    simp only [define, hf]
  have hallocated := hi.allocated.trans_le hgrown.dicts
  have howner : k.owner i.root = i.root := by
    rw [owner, hgrown.cell _ hi.allocated (by simp), hi.own]
    rfl
  have hput := hi.put hgrown hb hf
  refine ⟨b, ?_, hb.name⟩
  rw [hinstall, hdefine, Heap.get, hf]
  simp only [slots, owner, hput.own, Option.getD_none]
  rw [put, howner, cell_modifyCell hallocated, if_pos rfl]
  simp only [Slots.put, lookup_putSlot, if_true, Option.getD_some]

theorem installed_foldl (hi : i.heap.Installed i.root fs) (gs : List HostBinding) :
    (gs.foldl install i).heap.Installed i.root (fs ++ gs) := by
  induction gs generalizing i fs with
  | nil => simpa using hi
  | cons g gs ih =>
    have hstep : (i.install g).heap.Installed (i.install g).root (fs ++ [g]) :=
      installed_install hi g
    rw [List.append_cons]
    exact ih hstep

/-- An interpreter whose host has installed functions besides the primitives. The registry of the
host comes after the standard one. -/
def hosting (maxDepth : Nat) (registry : Registry) (functions : String → Option HostFunction)
    (fs : List HostBinding) : Interpreter :=
  fs.foldl install (new maxDepth (Registry.standard ++ registry) functions)

section
variable (maxDepth : Nat) (registry : Registry) (functions : String → Option HostFunction)

theorem runtime_foldl (fs : List HostBinding) (i : Interpreter) :
    (fs.foldl install i).runtime = i.runtime := by
  induction fs generalizing i with
  | nil => rfl
  | cons f fs ih => exact (ih _).trans rfl

theorem installed_hosting (fs : List HostBinding) :
    (hosting maxDepth registry functions fs).heap.Installed
      (hosting maxDepth registry functions fs).root (builtins ++ fs) := by
  have hbare := installed_bare maxDepth (Registry.standard ++ registry) functions
  have hall := installed_foldl hbare (builtins ++ fs)
  rw [List.foldl_append, ← new_eq] at hall
  rw [root, hosting, runtime_foldl, new_eq, runtime_foldl]
  exact hall

theorem get_hosting (fs : List HostBinding) {f : HostBinding} {n : String}
    (hf : Key.of f.name = .slot n) :
    ∃ b, (hosting maxDepth registry functions (fs ++ [f])).heap.get
      (hosting maxDepth registry functions (fs ++ [f])).root f.name = .block b ∧
      b.name = some f.name := by
  have hi := installed_hosting maxDepth registry functions fs
  rw [show hosting maxDepth registry functions (fs ++ [f]) =
    (hosting maxDepth registry functions fs).install f from List.foldl_concat _ _ _ _]
  exact get_install hi hf

theorem registry_hosting (fs : List HostBinding) :
    (hosting maxDepth registry functions fs).runtime.registry = Registry.standard ++ registry := by
  rw [hosting, runtime_foldl, new_eq, runtime_foldl]
  rfl

/-- What the root environment has under the name that it was installed with freezes, and thaws in
the root environment to a block with the same name and parameters. The block runs the primitive of
that name, or else the function that was installed last. -/
theorem thaw_freeze_function (fs : List HostBinding) (name : String) (b : Block)
    (hbound : (hosting maxDepth registry functions fs).heap.get
      (hosting maxDepth registry functions fs).root name = .block b) (hname : b.name = some name) :
    ∃ f n tokens c m k, (builtins ++ fs).reverse.find? (fun f => f.name = name) = some f ∧
      b.params = f.params ∧ b.body = [.native n] ∧
      (hosting maxDepth registry functions fs).heap.native? n = some (.function name f.code) ∧
      (hosting maxDepth registry functions fs).heap.freeze (.block b) = .ok tokens ∧
      (hosting maxDepth registry functions fs).thaw (.arr (tokens.map Token.toJson))
        (some (hosting maxDepth registry functions fs).root) = (.ok (.block c), k) ∧
      c.name = b.name ∧ c.params = b.params ∧ c.body = [.native m] ∧
      k.heap.native? m = some (.function name (f.code.named name)) := by
  have hregistry := registry_hosting maxDepth registry functions fs
  obtain ⟨f, hlast, hb, hoffers⟩ :=
    (installed_hosting maxDepth registry functions fs).exists_hostBlock hbound hname
  generalize hosting maxDepth registry functions fs = i at *
  obtain ⟨n, hbody, hn⟩ := hb.body
  obtain ⟨c, m, k, hthaw, hcname, hcparams, hcbody, hm⟩ :=
    thaw_hostBlock f.params
      (hregistry ▸ rfl : i.runtime.registry.lookup functionTag = _) hoffers
  refine ⟨f, n, _, c, m, { i with heap := k }, hlast, hb.params, hbody, hn, freeze_hostBlock hb, ?_,
    hcname.trans hname.symm, hcparams.trans hb.params.symm, hcbody, hm⟩
  rw [Interpreter.thaw, hthaw]

end

def twice : HostBinding := { name := "twice", params := ["x"], code := .host "double" }

def plus : HostBinding := { name := "+", params := ["x"], code := .host "double" }

theorem thaw_freeze_twice :
    ∃ tokens b c m k, (hosting 100 [] (fun _ => none) [twice]).heap.freeze (.block b) = .ok tokens ∧
      (hosting 100 [] (fun _ => none) [twice]).thaw (.arr (tokens.map Token.toJson))
        (some (hosting 100 [] (fun _ => none) [twice]).root) = (.ok (.block c), k) ∧
      c.params = ["x"] ∧ c.body = [.native m] ∧
      k.heap.native? m = some (.function "twice" (.host "double")) := by
  obtain ⟨b, hbound, hname⟩ := get_hosting 100 [] (fun _ => none) [] (f := twice) (n := "twice")
    (by decide)
  obtain ⟨f, n, tokens, c, m, k, hlast, hparams, -, -, hfreeze, hthaw, -, hcparams, hbody, hm⟩ :=
    thaw_freeze_function 100 [] (fun _ => none) [twice] "twice" b hbound hname
  obtain rfl : f = twice := by
    rw [List.reverse_append] at hlast
    exact (Option.some.inj hlast).symm
  exact ⟨tokens, b, c, m, k, hfreeze, hthaw, hcparams.trans hparams, hbody, hm⟩

/-- Under the name of a primitive the primitive is found, not the function that was installed. -/
theorem thaw_freeze_plus :
    ¬ ∀ b, (hosting 100 [] (fun _ => none) [plus]).heap.get
          (hosting 100 [] (fun _ => none) [plus]).root "+" = .block b → b.name = some "+" →
        ∃ n tokens c m k, b.body = [.native n] ∧
          (hosting 100 [] (fun _ => none) [plus]).heap.freeze (.block b) = .ok tokens ∧
          (hosting 100 [] (fun _ => none) [plus]).thaw (.arr (tokens.map Token.toJson))
            (some (hosting 100 [] (fun _ => none) [plus]).root) = (.ok (.block c), k) ∧
          c.name = b.name ∧ c.params = b.params ∧ c.body = [.native m] ∧
          k.heap.native? m = (hosting 100 [] (fun _ => none) [plus]).heap.native? n := by
  intro hsame
  have hregistry := registry_hosting 100 [] (fun _ => none) [plus]
  obtain ⟨b, hbound, hname⟩ := get_hosting 100 [] (fun _ => none) [] (f := plus) (n := "+")
    (by decide)
  obtain ⟨f, hlast, hb, hoffers⟩ :=
    (installed_hosting 100 [] (fun _ => none) [plus]).exists_hostBlock hbound hname
  obtain rfl : f = plus := by
    rw [List.reverse_append] at hlast
    exact (Option.some.inj hlast).symm
  obtain ⟨n, tokens, c, m, k, hbody, hfreeze, hthaw, -, -, hcbody, hm⟩ := hsame b hbound hname
  generalize hosting 100 [] (fun _ => none) [plus] = i at *
  obtain ⟨n', hbody', hn⟩ := hb.body
  obtain rfl : n = n' := by simpa [hbody] using hbody'
  obtain rfl : _ = tokens := Except.ok.inj ((freeze_hostBlock hb).symm.trans hfreeze)
  obtain ⟨c', m', k', hthaw', -, -, hcbody', hm'⟩ :=
    thaw_hostBlock plus.params
      (hregistry ▸ rfl : i.runtime.registry.lookup functionTag = _) hoffers
  rw [Interpreter.thaw, hthaw'] at hthaw
  cases hthaw
  obtain rfl : m = m' := by simpa [hcbody] using hcbody'
  -- the thawed block adds, the other doubles
  have hcode : (Native.function "+" (Code.named "+" plus.code)) = .function "+" plus.code :=
    Option.some.inj (hm'.symm.trans (hm.trans hn))
  exact absurd hcode (by simp [plus, Code.named, show Primitive.ofName? "+" = some .add from rfl])

end Interpreter
end DictScript
