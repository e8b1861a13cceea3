import DictScript.Proofs.Frozen.Quoted

/-!
Streams that the grammar derives are thawed, whatever the scope and the defrosters, as long as no
dictionary in them has a tag or a link.
-/
namespace DictScript
open Heap
variable {h k : Heap} {T T' T₁ T₂ : List Opened} {i : Nat} {o : Opened} {g : Given}
variable {v w : Value} {l : ListId} {d : DictId} {t t' : Thawer} {table table' : Array Value}

def reservedKeys : List String := [tagKey, "parent", "^", "caller"]

def Unreserved (names : List String) : Prop := ∀ n ∈ names, n ∉ reservedKeys

theorem Unreserved.sublist {ns ms : List String} (hns : Unreserved ns) (hms : ms.Sublist ns) :
    Unreserved ms := fun n hn => hns n (hms.subset hn)

theorem key_of_unreserved {n : String} (hn : n ∉ reservedKeys) :
    Key.of n = .slot (canonical n) ∧ canonical n ≠ tagKey := by
  simp only [reservedKeys, tagKey, List.mem_cons, List.not_mem_nil, or_false, not_or] at hn
  obtain ⟨htag, hparent, hshort, hcaller⟩ := hn
  rw [Key.of, canonical, if_neg hshort]
  by_cases hself : n = "@"
  · simp [hself, tagKey]
  · simp [hself, hparent, hcaller, tagKey, htag]

def DictCell.Plain (c : DictCell) : Prop :=
  c.target = none ∧ tagKey ∉ c.slots.toList.map Prod.fst

namespace Opened

def Is (h : Heap) : Opened → Value → Prop
  | list symbols, .list l =>
    l.index < h.lists.size ∧ symbols = (h.items l).all fun v => v.sym?.isSome
  | dict, .dict d => d.index < h.dicts.size ∧ (h.cell d).Plain
  | _, _ => False

theorem Is.eq_list (ho : o.Is h (.list l)) : o = list ((h.items l).all fun v => v.sym?.isSome) ∧
    l.index < h.lists.size := by
  cases o with
  | list symbols => exact ⟨congrArg list ho.2, ho.1⟩
  | dict => exact ho.elim

theorem Is.eq_dict (ho : o.Is h (.dict d)) :
    o = dict ∧ d.index < h.dicts.size ∧ (h.cell d).Plain := by
  cases o with
  | list symbols => exact ho.elim
  | dict => exact ⟨rfl, ho⟩

/-- An object stays what it is while others are filled. -/
theorem Is.grown {x : Option Ref} (hg : GrownBut x h k) (hx : ∀ r, x = some r → v ≠ r.toValue)
    (ho : o.Is h v) : o.Is k v := by
  cases o with
  | list symbols =>
    cases v with
    | list l =>
      have hsame : k.items l = h.items l := hg.items l ho.1 fun heq => hx _ heq rfl
      exact ⟨ho.1.trans_le hg.lists, hsame ▸ ho.2⟩
    | _ => exact ho.elim
  | dict =>
    cases v with
    | dict d =>
      have hsame : k.cell d = h.cell d := hg.cell d ho.1 fun heq => hx _ heq rfl
      exact ⟨ho.1.trans_le hg.dicts, hsame ▸ ho.2⟩
    | _ => exact ho.elim

end Opened

namespace Given

def Of (table : Array Value) : Given → Value → Prop
  | nil, .nil => True
  | symbol, .sym _ => True
  | list i, .list l => table[i]? = some (.list l)
  | dict, .dict _ => True
  | other, .bool _ | other, .num _ | other, .str _ => True
  | other, .quote _ | other, .fullQuote _ | other, .block _ => True
  | _, _ => False

theorem Of.isSome_sym? (hv : g.Of table v) : v.sym?.isSome = decide (g = .symbol) := by
  cases g <;> cases v <;> simp_all [Of, Value.sym?]

theorem Of.exists_list (hv : (list i).Of table v) :
    ∃ l, v = .list l ∧ table[i]? = some (.list l) := by
  cases v with
  | list l => exact ⟨l, rfl, hv⟩
  | _ => exact hv.elim

theorem of_given (ho : o.Is h v) (hi : table[i]? = some v) : (o.given i).Of table v := by
  cases o with
  | list symbols =>
    cases v with
    | list l => exact hi
    | _ => exact ho.elim
  | dict =>
    cases v with
    | dict d => trivial
    | _ => exact ho.elim

end Given

namespace Thaw

structure Models (t : Thawer) (T : List Opened) : Prop where
  size : t.table.size = T.length
  is : ∀ (i : Nat) (o : Opened) (v : Value), T[i]? = some o → t.table[i]? = some v → o.Is t.heap v
  apart : ∀ (i j : Nat) (l : ListId), t.table[i]? = some (.list l) → t.table[j]? = some (.list l) →
    i = j

namespace Models

theorem exists_value (hm : Models t T) (hi : T[i]? = some o) : ∃ v, t.table[i]? = some v ∧
    o.Is t.heap v := by
  have hlt : i < t.table.size := hm.size ▸ (List.getElem?_eq_some_iff.mp hi).1
  exact ⟨t.table[i], Array.getElem?_eq_getElem hlt, hm.is i o _ hi (Array.getElem?_eq_getElem hlt)⟩

theorem exists_opened (hm : Models t T) (hi : t.table[i]? = some v) : ∃ o, T[i]? = some o ∧
    o.Is t.heap v := by
  have hlt : i < T.length := hm.size ▸ (Array.getElem?_eq_some_iff.mp hi).1
  exact ⟨T[i], List.getElem?_eq_getElem hlt, hm.is i _ v (List.getElem?_eq_getElem hlt) hi⟩

theorem grown (hm : Models t T) (htable : t'.table = t.table) (hg : Grown t.heap t'.heap) :
    Models t' T where
  size := htable ▸ hm.size
  is i o v hi hv := (hm.is i o v hi (htable ▸ hv)).grown hg (by simp)
  apart := htable ▸ hm.apart

theorem same (hm : Models t T) (htable : t'.table = t.table) (hl : t'.heap.lists = t.heap.lists)
    (hd : t'.heap.dicts = t.heap.dicts) : Models t' T :=
  hm.grown htable (.of_same hl hd)

/-- A new object takes the next number. -/
theorem push (hm : Models t T) (htable : t'.table = t.table.push v)
    (hg : Grown t.heap t'.heap) (ho : o.Is t'.heap v)
    (hnew : ∀ l, v = .list l → t.heap.lists.size ≤ l.index) : Models t' (T ++ [o]) where
  size := by simp [htable, hm.size]
  is i o' w hi hw := by
    rw [htable, Array.getElem?_push] at hw
    split at hw
    · rename_i heq
      cases hw
      rw [heq, hm.size, List.getElem?_append_right (le_refl _), Nat.sub_self] at hi
      cases hi
      exact ho
    · have hlt : i < T.length := hm.size ▸ (Array.getElem?_eq_some_iff.mp hw).1
      rw [List.getElem?_append_left hlt] at hi
      exact (hm.is i o' w hi hw).grown hg (by simp)
  apart i j l hi hj := by
    have hold : ∀ {i : Nat}, t.table[i]? = some (.list l) → v ≠ .list l := by
      rintro i hi rfl
      obtain ⟨o, -, ho⟩ := hm.exists_opened hi
      exact absurd ho.eq_list.2 (Nat.not_lt.mpr (hnew l rfl))
    rw [htable, Array.getElem?_push] at hi hj
    split at hi
    · split at hj
      · simp_all
      · exact (hold hj (Option.some.inj hi)).elim
    · split at hj
      · exact (hold hi (Option.some.inj hj)).elim
      · exact hm.apart i j l hi hj

theorem openList (hm : Models t T) (rest : List Token) :
    Models { heap := (t.heap.newList []).1.hold (.list (t.heap.newList []).2), rest := rest,
             table := t.table.push (.list (t.heap.newList []).2) } (T ++ [.list true]) := by
  refine hm.push rfl ((grown_newList t.heap []).trans (.of_same (lists_hold _ _) (dicts_hold _ _)))
    ⟨by simp [newList], ?_⟩ ?_
  · rw [items_congr (lists_hold _ _), items_newList_self]
    rfl
  · rintro l heq
    cases heq
    exact le_refl _

theorem openDict (hm : Models t T) (parent : Option DictId) (rest : List Token) :
    Models (Heap.openDict t parent rest) (T ++ [.dict]) := by
  refine hm.push rfl grown_openDict.toGrownBut ⟨by simp [Heap.openDict, Heap.newDict], ?_⟩ (by simp)
  rw [cell_openDict, if_pos rfl]
  exact ⟨rfl, List.not_mem_nil⟩

theorem pushItem (hm : Models t T) (hi : t.table[i]? = some (.list l)) (hv : g.Of t.table v) :
    Models { t with heap := t.heap.pushItem l v } (T.modify i (Opened.note g)) := by
  obtain ⟨o, ho, hlist⟩ := hm.exists_opened hi
  obtain ⟨rfl, hl⟩ := hlist.eq_list
  refine ⟨by simp [hm.size], fun j o' w hj hw => ?_, hm.apart⟩
  simp only [List.getElem?_modify, Option.map_eq_map] at hj
  by_cases hij : i = j
  · subst hij
    rw [hi] at hw
    cases hw
    rw [ho] at hj
    obtain rfl : _ = o' := by simpa using hj
    refine ⟨by simpa [Heap.pushItem] using hl, ?_⟩
    rw [items_pushItem hl, if_pos rfl, List.all_append, List.all_cons, List.all_nil,
      hv.isSome_sym?, Bool.and_true]
  · simp only [if_neg hij, Option.map_id'] at hj
    refine (hm.is j o' w hj hw).grown (grownBut_pushItem hl) ?_
    rintro r heq rfl
    cases heq
    exact hij (hm.apart i j l hi hw)

theorem define (hm : Models t T) (hi : t.table[i]? = some (.dict d)) {key : String}
    (hkey : key ∉ reservedKeys) :
    t.heap.define d key v = (.ok (), t.heap.put d (canonical key) v) ∧
      Models { t with heap := t.heap.put d (canonical key) v } T := by
  obtain ⟨hslot, htag⟩ := key_of_unreserved hkey
  obtain ⟨o, -, hdict⟩ := hm.exists_opened hi
  obtain ⟨rfl, hd, hplain⟩ := hdict.eq_dict
  have howner : t.heap.owner d = d := by rw [owner, hplain.1]; rfl
  refine ⟨by simp [Heap.define, hslot], hm.size, fun j o w hj hw => ?_, hm.apart⟩
  have hold := hm.is j o w hj hw
  simp only [Heap.put, howner]
  by_cases hwd : w = .dict d
  · subst hwd
    obtain ⟨rfl, -, -⟩ := hold.eq_dict
    refine ⟨by simpa [modifyCell] using hd, ?_⟩
    rw [cell_modifyCell hd, if_pos rfl]
    refine ⟨hplain.1, fun hmem => ?_⟩
    cases mem_map_fst_putSlot.mp hmem with
    | inl heq => exact htag heq.symm
    | inr hmem => exact hplain.2 hmem
  · refine hold.grown (grownBut_modifyCell hd) ?_
    rintro r heq rfl
    cases heq
    exact hwd rfl

theorem holds_tag (hm : Models t T) (hi : t.table[i]? = some (.dict d)) :
    t.heap.holds d tagKey = false := by
  obtain ⟨o, -, hdict⟩ := hm.exists_opened hi
  obtain ⟨-, -, hplain⟩ := hdict.eq_dict
  rw [(get_holds (by decide) hplain.1).1, Bool.eq_false_iff, ne_eq, lookup_isSome_iff]
  exact hplain.2

end Models

/-! The parts of a block. -/

theorem exists_syms {vs : List Value} (hvs : (vs.all fun v => v.sym?.isSome) = true) :
    ∃ names : List String, vs = names.map .sym := by
  induction vs with
  | nil => exact ⟨[], rfl⟩
  | cons v vs ih =>
    rw [List.all_cons, Bool.and_eq_true] at hvs
    obtain ⟨names, rfl⟩ := ih hvs.2
    cases v with
    | sym n => exact ⟨n :: names, rfl⟩
    | _ => simp [Value.sym?] at hvs

theorem exists_gives_paramNames (hm : Models t T) (hl : t.table[i]? = some (.list l))
    (hi : T[i]? = some (.list true)) : ∃ params, Gives (paramNames (.list l)) t params t := by
  obtain ⟨-, hsyms⟩ := hm.is i _ _ hi hl
  obtain ⟨params, hparams⟩ := exists_syms hsyms.symm
  exact ⟨params, gives_paramNames hparams⟩

theorem exists_gives_blockEnv (scope : Option DictId) (inert : Bool) (t : Thawer)
    (hv : g.Of table v) (hg : g = .dict ∨ g = .nil) :
    ∃ d t', Gives (blockEnv scope v) t d t' ∧ t'.rest = t.rest ∧ t'.table = t.table ∧
      Grown t.heap t'.heap ∧ Attaches scope inert [] t t' := by
  have hsame : Attaches scope inert [] t t := attaches_of_same rfl rfl rfl
  obtain rfl | rfl := hg
  · cases v with
    | dict d => exact ⟨d, t, gives_blockEnv scope d t, rfl, rfl, .of_same rfl rfl, hsame⟩
    | _ => exact hv.elim
  · cases v with
    | nil =>
      cases scope with
      | some d => exact ⟨d, t, gives_pure d t, rfl, rfl, .of_same rfl rfl, hsame⟩
      | none =>
        exact ⟨_, _, gives_create (·.newDict {}) t, rfl, rfl, grown_newDict t.heap {},
          attaches_newDict t⟩
    | _ => exact hv.elim

theorem exists_gives_blockName {name : Token} {rest : List Token} (ht : t.rest = name :: rest)
    (hname : name = .null ∨ ∃ text, name = .str text) :
    ∃ name', Gives blockName t name' { t with rest := rest } := by
  obtain rfl | ⟨text, rfl⟩ := hname
  · exact ⟨none, gives_blockName ht⟩
  · have hgives : Gives blockName t (some text) { t with rest := rest } := gives_blockName ht
    exact ⟨_, hgives⟩

/-! What is derived is read. -/

structure Passed (t t' : Thawer) (T' : List Opened) (rest : List Token) : Prop where
  rest : t'.rest = rest
  models : Models t' T'
  keeps : Keeps t t'

def Accepts (registry : Registry) (scope : Option DictId) (T : List Opened) :
    Phrase → List Token → List Opened → Prop
  | .value g, ts, T' => ∀ fuel inert t st rest, 2 * ts.length ≤ fuel → Models t T →
      t.rest = ts ++ rest → Unreserved (keys (.value :: st) t.rest) →
      ∃ v t', Gives (value registry scope fuel inert) t v t' ∧ Passed t t' T' rest ∧
        g.Of t'.table v ∧ Attaches scope inert ts t t'
  | .items i, ts, T' => ∀ fuel inert t st rest (l : ListId), 2 * ts.length + 1 ≤ fuel → Models t T →
      t.rest = ts ++ .mark .listClose :: rest → Unreserved (keys (.items :: st) t.rest) →
      t.table[i]? = some (.list l) →
      ∃ t', Gives (items registry scope fuel inert l) t () t' ∧ Passed t t' T' rest ∧
        Attaches scope inert ts t t'
  | .entries, ts, T' => ∀ fuel inert t st rest (i : Nat) (d : DictId), 2 * ts.length + 1 ≤ fuel →
      Models t T →
      t.rest = ts ++ .mark .dictClose :: rest → Unreserved (keys (.entries :: st) t.rest) →
      t.table[i]? = some (Value.dict d) →
      ∃ t', Gives (entries registry scope fuel inert d) t () t' ∧ Passed t t' T' rest ∧
        Attaches scope inert ts t t'

variable {registry : Registry} {scope : Option DictId} {ts ps es bs us : List Token}

theorem accepts_leaf {tok : Token} (htok : tok.opens = false)
    (hrun : ∀ fuel inert (t : Thawer) rest, Models t T →
      t.rest = tok :: rest → ∃ v, g.Of t.table v ∧
        Gives (value registry scope (fuel + 1) inert) t v { t with rest := rest }) :
    Accepts registry scope T (.value g) [tok] T := by
  intro fuel inert t st rest hfuel hm hrest _
  have hfuel : 2 ≤ fuel := hfuel
  obtain ⟨fuel, rfl⟩ : ∃ f, fuel = f + 1 := ⟨fuel - 1, by omega⟩
  obtain ⟨v, hv, hgives⟩ := hrun fuel inert t rest hm hrest
  exact ⟨v, _, hgives, ⟨rfl, hm.same rfl rfl rfl, .refl t⟩, hv,
    attaches_of_same (by simp [htok]) rfl rfl⟩

theorem accepts_quoted {m : Mark} (quote : Value → Value) (hm : m = .quote ∧ quote = .quote ∨
      m = .fullQuote ∧ quote = .fullQuote) (dts : Derives T (.value g) ts T')
    (hts : Accepts registry scope T (.value g) ts T') :
    Accepts registry scope T (.value .other) (.mark m :: ts) T' := by
  intro fuel inert t st rest hfuel hmodels hrest hkeys
  rw [List.length_cons] at hfuel
  obtain ⟨fuel, rfl⟩ : ∃ f, fuel = f + 1 := ⟨fuel - 1, by omega⟩
  rw [hrest] at hkeys
  have hinner : ∀ inert, ∃ v t', Gives (value registry scope fuel inert)
      { t with rest := ts ++ rest } v t' ∧ Passed t t' T' rest ∧ Attaches scope inert ts t t' := by
    intro inert
    obtain ⟨v, t', hrun, hpassed, -, hattaches⟩ := hts fuel inert { t with rest := ts ++ rest } st
      rest (by omega) (hmodels.same rfl rfl rfl) rfl
      (by obtain ⟨rfl, -⟩ | ⟨rfl, -⟩ := hm <;> exact hkeys)
    exact ⟨v, t', hrun, ⟨hpassed.rest, hpassed.models, hpassed.keeps⟩,
      hattaches.begins rfl rfl⟩
  obtain ⟨rfl, rfl⟩ | ⟨rfl, rfl⟩ := hm
  · obtain ⟨v, t', hrun, hpassed, hattaches⟩ := hinner inert
    have hquote : QuotesWhole [.mark .quote] := quotesWhole_nil.cons (by simp)
    refine ⟨.quote v, t', ?_, hpassed, trivial, hattaches.after rfl hquote rfl rfl⟩
    rw [value]
    exact (gives_next hrest).bind (hrun.bind (gives_pure _ _))
  · obtain ⟨v, t', hrun, hpassed, hattaches⟩ := hinner true
    refine ⟨.fullQuote v, t', ?_, hpassed, trivial, hattaches.fullQuote ⟨_, _, _, dts⟩⟩
    rw [value]
    exact (gives_next hrest).bind (hrun.bind (gives_pure _ _))

theorem accepts_list (dts : Derives (T ++ [.list true]) (.items T.length) ts T')
    (hts : Accepts registry scope (T ++ [.list true]) (.items T.length) ts T') :
    Accepts registry scope T (.value (.list T.length))
      (.mark .listOpen :: (ts ++ [.mark .listClose])) T' := by
  intro fuel inert t st rest hfuel hm hrest hkeys
  simp only [List.length_cons, List.length_append, List.length_nil] at hfuel
  obtain ⟨fuel, rfl⟩ : ∃ f, fuel = f + 1 := ⟨fuel - 1, by omega⟩
  rw [hrest] at hkeys
  simp only [List.cons_append, List.append_assoc, List.nil_append] at hrest hkeys
  obtain ⟨hkeeps, hnumber⟩ := Underway.keeps_register (t := t) (.list (t.heap.newList []).2)
    ((t.heap.newList []).1.hold (.list (t.heap.newList []).2))
  rw [hm.size] at hnumber
  obtain ⟨t', hrun, hpassed, hattaches⟩ :=
    hts fuel inert _ st rest _ (by omega) (hm.openList _) rfl hkeys hnumber
  refine ⟨.list (t.heap.newList []).2, t', ?_,
    ⟨hpassed.rest, hpassed.models, hkeeps.trans hpassed.keeps⟩, hpassed.keeps _ _ hnumber,
    (attaches_openList _ rfl (dicts_hold _ _)).trans (quotesWhole_nil.cons (by simp))
      (hattaches.close dts.quotesWhole rfl rfl rfl)⟩
  rw [value]
  refine (gives_next hrest).bind ?_
  refine (gives_create _ _).bind ?_
  refine (gives_register _ _).discard.bind ?_
  exact hrun.bind (gives_pure _ _)

theorem accepts_dict (dts : Derives (T ++ [.dict]) .entries ts T')
    (hts : Accepts registry scope (T ++ [.dict]) .entries ts T') :
    Accepts registry scope T (.value .dict) (.mark .dictOpen :: (ts ++ [.mark .dictClose])) T' := by
  intro fuel inert t st rest hfuel hm hrest hkeys
  simp only [List.length_cons, List.length_append, List.length_nil] at hfuel
  obtain ⟨fuel, rfl⟩ : ∃ f, fuel = f + 1 := ⟨fuel - 1, by omega⟩
  rw [hrest] at hkeys
  simp only [List.cons_append, List.append_assoc, List.nil_append] at hrest hkeys
  let t₁ := Heap.openDict t (if inert then none else scope) (ts ++ .mark .dictClose :: rest)
  obtain ⟨hkeeps, hnumber⟩ := Underway.keeps_register (t := t) (.dict ⟨t.heap.dicts.size⟩) t₁.heap
  obtain ⟨t', hrun, hpassed, hattaches⟩ :=
    hts fuel inert t₁ st rest t.table.size _ (by omega) (hm.openDict _ _) rfl hkeys hnumber
  refine ⟨.dict ⟨t.heap.dicts.size⟩, t', ?_,
    ⟨hpassed.rest, hpassed.models, fun i v hi => hpassed.keeps i v (hkeeps i v hi)⟩, trivial,
    (attaches_openDict t _).trans (quotesWhole_nil.cons (by simp))
      (hattaches.close dts.quotesWhole rfl rfl rfl)⟩
  rw [value]
  refine (gives_next hrest).bind ?_
  refine (gives_create _ _).bind ?_
  refine (gives_register _ _).bind ?_
  exact hrun.bind (gives_finishDict (hpassed.models.holds_tag (hpassed.keeps _ _ hnumber)))

theorem accepts_block {T₃ : List Opened} {name : Token} {j : Nat} {e : Given}
    (hname : name = .null ∨ ∃ text, name = .str text)
    (dps : Derives T (.value (.list i)) ps T₁) (des : Derives T₁ (.value e) es T₂)
    (hps : Accepts registry scope T (.value (.list i)) ps T₁) (hi : T₁[i]? = some (.list true))
    (hes : Accepts registry scope T₁ (.value e) es T₂) (he : e = .dict ∨ e = .nil)
    (dbs : Derives T₂ (.value (.list j)) bs T₃)
    (hbs : Accepts registry scope T₂ (.value (.list j)) bs T₃) :
    Accepts registry scope T (.value .other)
      (.mark .blockOpen :: name :: (ps ++ (es ++ (bs ++ [.mark .blockClose])))) T₃ := by
  intro fuel inert t st rest hfuel hm hrest hkeys
  simp only [List.length_cons, List.length_append, List.length_nil] at hfuel
  obtain ⟨fuel, rfl⟩ : ∃ f, fuel = f + 1 := ⟨fuel - 1, by omega⟩
  rw [hrest] at hkeys
  simp only [List.cons_append, List.append_assoc, List.nil_append] at hrest hkeys
  have hkeys₁ : Unreserved (keys (.value :: .value :: .value :: .blockEnd :: st)
      (ps ++ (es ++ (bs ++ .mark .blockClose :: rest)))) := by
    obtain rfl | ⟨text, rfl⟩ := hname <;> exact hkeys
  have hkeys₂ : Unreserved (keys (.value :: .value :: .blockEnd :: st)
      (es ++ (bs ++ .mark .blockClose :: rest))) := hkeys₁.sublist (dps.keys_sublist _ _)
  have hkeys₃ : Unreserved (keys (.value :: .blockEnd :: st) (bs ++ .mark .blockClose :: rest)) :=
    hkeys₂.sublist (des.keys_sublist _ _)
  obtain ⟨name', hname'⟩ := exists_gives_blockName (t := { t with
    rest := name :: (ps ++ (es ++ (bs ++ .mark .blockClose :: rest))) }) rfl hname
  -- the parameters
  let t₀ : Thawer := { t with rest := ps ++ (es ++ (bs ++ .mark .blockClose :: rest)) }
  obtain ⟨v₁, t₁, hrun₁, hpassed₁, hv₁, hattaches₁⟩ :=
    hps fuel inert t₀ _ _ (by omega) (hm.same rfl rfl rfl) rfl hkeys₁
  obtain ⟨l, rfl, hl⟩ := hv₁.exists_list
  obtain ⟨params, hparams⟩ := exists_gives_paramNames hpassed₁.models hl hi
  -- the environment
  obtain ⟨v₂, t₂, hrun₂, hpassed₂, hv₂, hattaches₂⟩ :=
    hes fuel inert t₁ _ _ (by omega) hpassed₁.models hpassed₁.rest (hpassed₁.rest ▸ hkeys₂)
  obtain ⟨d, t₃, henv, hrest₃, htable₃, hgrown₃, hattaches₃⟩ :=
    exists_gives_blockEnv scope inert t₂ hv₂ he
  let t₄ : Thawer := { t₃ with heap := t₃.heap.hold (.dict d) }
  have hm₄ : Models t₄ T₂ :=
    (hpassed₂.models.grown htable₃ hgrown₃).same rfl (lists_hold _ _) (dicts_hold _ _)
  have hrest₄ : t₄.rest = bs ++ .mark .blockClose :: rest := hrest₃.trans hpassed₂.rest
  -- the body
  obtain ⟨v₅, t₅, hrun₅, hpassed₅, hv₅, hattaches₅⟩ :=
    hbs fuel inert t₄ _ _ (by omega) hm₄ hrest₄ (hrest₄ ▸ hkeys₃)
  obtain ⟨m, rfl, -⟩ := hv₅.exists_list
  let t₆ : Thawer := { t₅ with heap := t₅.heap.letGo d, rest := rest }
  let b : Block := ⟨0, name', params, t₅.heap.items m, d, none⟩
  refine ⟨(t₆.heap.newBlock b).2, { t₆ with heap := (t₆.heap.newBlock b).1 }, ?_, ⟨rfl, ?_, ?_⟩,
    trivial, ?_⟩
  · rw [value]
    refine (gives_next hrest).bind ?_
    refine hname'.bind ?_
    refine hrun₁.bind ?_
    refine hparams.bind ?_
    refine hrun₂.bind ?_
    refine henv.bind ?_
    refine (gives_change _ _).bind ?_
    refine hrun₅.bind ?_
    refine (gives_blockBody rfl).bind ?_
    refine (gives_change _ _).bind ?_
    refine (gives_close (t := { t₅ with heap := t₅.heap.letGo d }) hpassed₅.rest).bind ?_
    rw [if_pos rfl]
    exact gives_create _ _
  · exact hpassed₅.models.same rfl (by simp [t₆, newBlock]) (by simp [t₆, newBlock])
  · intro j v hj
    have hj₂ := hpassed₂.keeps j v (hpassed₁.keeps j v hj)
    exact hpassed₅.keeps j v (htable₃ ▸ hj₂)
  · have hopens : [Token.mark .blockOpen, name].countP Token.opens = 0 := by
      obtain rfl | ⟨text, rfl⟩ := hname <;> rfl
    have hwhole : QuotesWhole [.mark .blockOpen, name] := by
      refine (quotesWhole_nil.cons ?_).cons (by simp)
      obtain rfl | ⟨text, rfl⟩ := hname <;> simp
    have hclose : Attaches scope inert (bs ++ [.mark .blockClose]) t₄
        { t₆ with heap := (t₆.heap.newBlock b).1 } :=
      hattaches₅.close dbs.quotesWhole rfl rfl (by simp [t₆, newBlock])
    have hbody := hattaches₃.trans quotesWhole_nil
      (hclose.begins rfl (dicts_hold _ _))
    exact (hattaches₁.trans dps.quotesWhole (hattaches₂.trans des.quotesWhole hbody)).after hopens
      hwhole rfl rfl

theorem accepts_item (dts : Derives T (.value g) ts T₁)
    (hts : Accepts registry scope T (.value g) ts T₁)
    (hus : Accepts registry scope (T₁.modify i (Opened.note g)) (.items i) us T₂) :
    Accepts registry scope T (.items i) (ts ++ us) T₂ := by
  intro fuel inert t st rest l hfuel hm hrest hkeys hl
  rw [List.length_append] at hfuel
  obtain ⟨fuel, rfl⟩ : ∃ f, fuel = f + 1 := ⟨fuel - 1, by omega⟩
  rw [hrest, List.append_assoc, dts.keys_items] at hkeys
  rw [List.append_assoc] at hrest
  obtain ⟨tok, ts', hcons, htok⟩ := dts.exists_cons
  have hpos : 0 < ts.length := by simp [hcons]
  obtain ⟨v, t₁, hrun₁, hpassed₁, hv, hattaches₁⟩ :=
    hts fuel inert t (.items :: st) _ (by omega) hm hrest (hrest ▸ hkeys)
  have hl₁ := hpassed₁.keeps _ _ hl
  have hkeys₁ := hkeys.sublist (dts.keys_sublist _ _)
  obtain ⟨t₂, hrun₂, hpassed₂, hattaches₂⟩ := hus fuel inert _ st rest l (by omega)
    (hpassed₁.models.pushItem hl₁ hv) hpassed₁.rest (hpassed₁.rest ▸ hkeys₁) hl₁
  refine ⟨t₂, ?_, ⟨hpassed₂.rest, hpassed₂.models, ?_⟩,
    hattaches₁.trans dts.quotesWhole (hattaches₂.begins rfl rfl)⟩
  · rw [items]
    rw [hcons] at hrest
    refine (gives_close_false hrest htok).bind ?_
    exact hrun₁.bind ((gives_change _ _).bind hrun₂)
  · exact fun j w hj => hpassed₂.keeps j w (hpassed₁.keeps j w hj)

theorem accepts_entry {key : String} (dts : Derives T (.value g) ts T₁)
    (hts : Accepts registry scope T (.value g) ts T₁)
    (hus : Accepts registry scope T₁ .entries us T₂) :
    Accepts registry scope T .entries (.str key :: (ts ++ us)) T₂ := by
  intro fuel inert t st rest i d hfuel hm hrest hkeys hd
  rw [List.length_cons, List.length_append] at hfuel
  obtain ⟨fuel, rfl⟩ : ∃ f, fuel = f + 1 := ⟨fuel - 1, by omega⟩
  rw [hrest] at hkeys
  rw [List.cons_append, List.append_assoc] at hrest hkeys
  have hkey : key ∉ reservedKeys := hkeys key List.mem_cons_self
  have hkeys :
      Unreserved (keys (.value :: .entries :: st) (ts ++ (us ++ .mark .dictClose :: rest))) :=
    fun n hn => hkeys n (List.mem_cons_of_mem _ hn)
  let t₀ : Thawer := { t with rest := ts ++ (us ++ .mark .dictClose :: rest) }
  obtain ⟨v, t₁, hrun₁, hpassed₁, hv, hattaches₁⟩ :=
    hts fuel inert t₀ (.entries :: st) _ (by omega) (hm.same rfl rfl rfl) rfl hkeys
  have hd₁ := hpassed₁.keeps _ _ hd
  have hkeys₁ := hkeys.sublist (dts.keys_sublist _ _)
  obtain ⟨hdefine, hm₁⟩ := hpassed₁.models.define (v := v) hd₁ hkey
  obtain ⟨t₂, hrun₂, hpassed₂, hattaches₂⟩ := hus fuel inert _ st rest i d (by omega) hm₁
    hpassed₁.rest (hpassed₁.rest ▸ hkeys₁) hd₁
  have hkeyWhole : QuotesWhole [.str key] := quotesWhole_nil.cons (by simp)
  refine ⟨t₂, ?_, ⟨hpassed₂.rest, hpassed₂.models, ?_⟩,
    (hattaches₁.trans dts.quotesWhole
      ((attaches_put _ _ _ _).trans quotesWhole_nil hattaches₂)).after rfl hkeyWhole rfl rfl⟩
  · rw [entries]
    refine (gives_close_false hrest (by simp)).bind ?_
    refine (gives_next hrest).bind ?_
    exact hrun₁.bind ((gives_onHeap hdefine).bind hrun₂)
  · exact fun j w hj => hpassed₂.keeps j w (hpassed₁.keeps j w hj)

theorem accepts_noItem : Accepts registry scope T (.items i) [] T := by
  intro fuel inert t st rest l hfuel hm hrest _ _
  obtain ⟨fuel, rfl⟩ : ∃ f, fuel = f + 1 := ⟨fuel - 1, by omega⟩
  refine ⟨{ t with rest := rest }, ?_, ⟨rfl, hm.same rfl rfl rfl, .refl t⟩,
    attaches_of_same rfl rfl rfl⟩
  rw [items]
  exact (gives_close hrest).bind (gives_pure _ _)

theorem accepts_noEntry : Accepts registry scope T .entries [] T := by
  intro fuel inert t st rest i d hfuel hm hrest _ _
  obtain ⟨fuel, rfl⟩ : ∃ f, fuel = f + 1 := ⟨fuel - 1, by omega⟩
  refine ⟨{ t with rest := rest }, ?_, ⟨rfl, hm.same rfl rfl rfl, .refl t⟩,
    attaches_of_same rfl rfl rfl⟩
  rw [entries]
  exact (gives_close hrest).bind (gives_pure _ _)

end Thaw

open Thaw in
/-- What the grammar derives is read. -/
theorem Derives.accepts {registry : Registry} {scope : Option DictId} {f : Phrase} {ts : List Token}
    (hts : Derives T f ts T') : Accepts registry scope T f ts T' := by
  induction hts with
  | null =>
    refine accepts_leaf rfl fun fuel inert t rest hm ht => ⟨.nil, trivial, ?_⟩
    rw [value]
    exact (gives_next ht).bind (gives_pure _ _)
  | bool b =>
    refine accepts_leaf rfl fun fuel inert t rest hm ht => ⟨.bool b, trivial, ?_⟩
    rw [value]
    exact (gives_next ht).bind (gives_pure _ _)
  | num n =>
    refine accepts_leaf rfl fun fuel inert t rest hm ht => ⟨.num n.toFloat, trivial, ?_⟩
    rw [value]
    exact (gives_next ht).bind (gives_pure _ _)
  | str text =>
    refine accepts_leaf rfl fun fuel inert t rest hm ht => ⟨.str text, trivial, ?_⟩
    rw [value]
    exact (gives_next ht).bind (gives_pure _ _)
  | sym name =>
    refine accepts_leaf rfl fun fuel inert t rest hm ht => ⟨.sym name, trivial, ?_⟩
    rw [value]
    exact (gives_next ht).bind (gives_pure _ _)
  | ref hnumber ho =>
    refine accepts_leaf rfl fun fuel inert t rest hm ht => ?_
    obtain ⟨v, hv, his⟩ := hm.exists_value ho
    refine ⟨v, Given.of_given his hv, ?_⟩
    rw [value]
    exact (gives_next ht).bind (gives_reference (t := { t with rest := rest }) hnumber hv)
  | quote hts ih => exact accepts_quoted .quote (.inl ⟨rfl, rfl⟩) hts ih
  | fullQuote hts ih => exact accepts_quoted .fullQuote (.inr ⟨rfl, rfl⟩) hts ih
  | list hts ih => exact accepts_list hts ih
  | dict hts ih => exact accepts_dict hts ih
  | block hname hps hi hes he hbs ihps ihes ihbs =>
    exact accepts_block hname hps hes ihps hi ihes he hbs ihbs
  | noItem => exact accepts_noItem
  | item hts _ ih ih' => exact accepts_item hts ih ih'
  | noEntry => exact accepts_noEntry
  | entry key hts _ ih ih' => exact accepts_entry hts ih ih'

end DictScript
