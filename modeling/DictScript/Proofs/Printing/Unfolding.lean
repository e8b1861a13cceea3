import DictScript.Proofs.Printing.Style

/-!
Printed values are unfolded graphs. Every list and every dictionary is unfolded where it occurs,
except below itself, whether it occurs once or many times.
-/
namespace DictScript
variable {h k : Heap} {v w x : Value} {vs : List Value} {n : Nat} {path : List Ref} {r : Ref}

inductive Unfolding where
  | atom (text : String)
  | quote (t : Unfolding)
  | fullQuote (t : Unfolding)
  | list (ts : List Unfolding)
  | dict (names : List String) (ts : List Unfolding)
  | block (name : Option String) (params : List String) (ts : List Unfolding)
  /-- A list around, again. -/
  | openList
  /-- A dictionary around, again. -/
  | openDict

namespace Unfolding

mutual
def text : Unfolding → String
  | atom text => text
  | quote t => ":" ++ t.text
  | fullQuote t => "\\" ++ t.text
  | list ts => "[" ++ String.intercalate " " (texts ts) ++ "]"
  | dict names ts =>
    "\x7b" ++ String.intercalate " " (List.zipWith (fun n t => n ++ " = " ++ t) names (texts ts)) ++
      "\x7d"
  | block name params ts =>
    name.getD "" ++ "[" ++ paramText params ++ "|" ++ String.join ((texts ts).map (" " ++ ·)) ++ "]"
  | openList => "[...]"
  | openDict => "\x7b...\x7d"

def texts : List Unfolding → List String
  | [] => []
  | t :: ts => t.text :: texts ts
end

mutual
def Full : Unfolding → Prop
  | atom _ => True
  | quote t | fullQuote t => t.Full
  | list ts | dict _ ts | block _ _ ts => AllFull ts
  | openList | openDict => False

def AllFull : List Unfolding → Prop
  | [] => True
  | t :: ts => t.Full ∧ AllFull ts
end

end Unfolding

namespace Heap

mutual
inductive Unfolds (h : Heap) : List Ref → Value → Unfolding → Prop where
  | nil {path : List Ref} : Unfolds h path .nil (.atom "nil")
  | num {path : List Ref} (x : Float) : Unfolds h path (.num x) (.atom (printFloat x))
  | bool {path : List Ref} (b : Bool) :
      Unfolds h path (.bool b) (.atom (if b then "true" else "false"))
  | str {path : List Ref} (s : String) : Unfolds h path (.str s) (.atom ("\"" ++ s ++ "\""))
  | sym {path : List Ref} (n : String) : Unfolds h path (.sym n) (.atom n)
  | native {path : List Ref} (x : NativeId) :
      Unfolds h path (.native x) (.atom (h.printNative x))
  | quote {path : List Ref} {v : Value} {t : Unfolding} : Unfolds h path v t →
      Unfolds h path (.quote v) (.quote t)
  | fullQuote {path : List Ref} {v : Value} {t : Unfolding} : Unfolds h path v t →
      Unfolds h path (.fullQuote v) (.fullQuote t)
  | block {path : List Ref} {b : Block} {ts : List Unfolding} : UnfoldsAll h path b.body ts →
      Unfolds h path (.block b) (.block b.name b.params ts)
  | list {path : List Ref} {l : ListId} {ts : List Unfolding} : .list l ∉ path →
      UnfoldsAll h (.list l :: path) (h.items l) ts → Unfolds h path (.list l) (.list ts)
  | openList {path : List Ref} {l : ListId} : .list l ∈ path →
      Unfolds h path (.list l) .openList
  | dict {path : List Ref} {d : DictId} {ts : List Unfolding} : .dict (h.owner d) ∉ path →
      UnfoldsAll h (.dict (h.owner d) :: path) ((h.slots d).map Prod.snd) ts →
      Unfolds h path (.dict d) (.dict (h.names d) ts)
  | openDict {path : List Ref} {d : DictId} : .dict (h.owner d) ∈ path →
      Unfolds h path (.dict d) .openDict

inductive UnfoldsAll (h : Heap) : List Ref → List Value → List Unfolding → Prop where
  | nil {path : List Ref} : UnfoldsAll h path [] []
  | cons {path : List Ref} {v : Value} {vs : List Value} {t : Unfolding} {ts : List Unfolding} :
      Unfolds h path v t → UnfoldsAll h path vs ts → UnfoldsAll h path (v :: vs) (t :: ts)
end

def shows (h : Heap) : Value → List Value
  | .quote v => [v]
  | .fullQuote v => [v]
  | .list l => h.items l
  | .dict d => (h.slots d).map Prod.snd
  | .block b => b.body
  | _ => []

def Shown (h : Heap) : Value → Value → Prop := Relation.ReflTransGen fun v w => w ∈ h.shows v

def Loopless (h : Heap) (v : Value) : Prop :=
  ∀ w, h.Shown v w → ∀ x, Relation.TransGen (fun v w => w ∈ h.shows v) w x →
    ∀ r, h.object? w = some r → h.object? x ≠ some r

def LooksAlike (h k : Heap) : Value → Prop
  | .list l => k.items l = h.items l
  | .dict d => k.owner d = h.owner d ∧ k.slots d = h.slots d
  | .native x => k.printNative x = h.printNative x
  | _ => True

/-! There is one unfolding at most. -/

mutual
theorem Unfolds.unique {path : List Ref} {v : Value} {t u : Unfolding} (ht : h.Unfolds path v t)
    (hu : h.Unfolds path v u) : t = u := by
  cases ht with
  | nil | num | bool | str | sym | native => cases hu; rfl
  | quote ht =>
    cases hu with
    | quote hu => rw [ht.unique hu]
  | fullQuote ht =>
    cases hu with
    | fullQuote hu => rw [ht.unique hu]
  | block ht =>
    cases hu with
    | block hu => rw [ht.unique hu]
  | list hl ht =>
    cases hu with
    | list _ hu => rw [ht.unique hu]
    | openList hmem => exact absurd hmem hl
  | openList hl =>
    cases hu with
    | list hmem _ => exact absurd hl hmem
    | openList _ => rfl
  | dict hd ht =>
    cases hu with
    | dict _ hu => rw [ht.unique hu]
    | openDict hmem => exact absurd hmem hd
  | openDict hd =>
    cases hu with
    | dict hmem _ => exact absurd hd hmem
    | openDict _ => rfl

theorem UnfoldsAll.unique {path : List Ref} {vs : List Value} {ts us : List Unfolding}
    (hts : h.UnfoldsAll path vs ts) (hus : h.UnfoldsAll path vs us) : ts = us := by
  cases hts with
  | nil => cases hus; rfl
  | cons ht hts =>
    cases hus with
    | cons hu hus => rw [ht.unique hu, hts.unique hus]
end

/-! Printing writes the unfolding. -/

theorem exists_unfoldsAll {style : PrintStyle}
    (hvs : ∀ v ∈ vs, ∃ t, h.Unfolds path v t ∧ v.print style = t.text) :
    ∃ ts, h.UnfoldsAll path vs ts ∧ printAll style vs = Unfolding.texts ts := by
  induction vs with
  | nil => exact ⟨[], .nil, rfl⟩
  | cons v vs ih =>
    obtain ⟨hv, hvs⟩ := List.forall_mem_cons.mp hvs
    obtain ⟨t, ht, htext⟩ := hv
    obtain ⟨ts, hts, htexts⟩ := ih hvs
    exact ⟨t :: ts, .cons ht hts, by rw [printAll, Unfolding.texts, htext, htexts]⟩

/-- The bindings of a dictionary are printed as its names and its values. -/
theorem map_entries {style : PrintStyle} (xs : List (String × Value)) :
    xs.map (fun s => s.1 ++ " = " ++ s.2.print style) =
      List.zipWith (fun n t => n ++ " = " ++ t) (xs.map Prod.fst)
        (printAll style (xs.map Prod.snd)) := by
  induction xs with
  | nil => rfl
  | cons s xs ih => simp only [List.map_cons, printAll, List.zipWith_cons_cons, ih]

theorem bounded_of_mem_body {b : Block} (hb : h.Bounded (.block b)) (hw : w ∈ b.body) :
    h.Bounded w := by
  obtain ⟨id, name, params, body, env, receiver⟩ := b
  intro r hr
  apply hb r
  rw [Value.refs, blockRefs]
  exact List.mem_cons_of_mem _ (List.mem_append_right _ (mem_allRefs.mpr ⟨w, hw, hr⟩))

structure Follows (h : Heap) (path : List Ref) (style : PrintStyle) : Prop where
  list : ∀ l, h.Allocated (.list l) → ∃ t, h.Unfolds path (.list l) t ∧ style.list l = t.text
  dict : ∀ d, h.Allocated (.dict d) → ∃ t, h.Unfolds path (.dict d) t ∧ style.dict d = t.text
  native : style.native = h.printNative
  elideBody : style.elideBody = false

theorem Follows.exists_unfolds {style : PrintStyle} (hs : h.Follows path style)
    (hv : h.Bounded v) : ∃ t, h.Unfolds path v t ∧ v.print style = t.text := by
  induction v using Value.ind with
  | nil => exact ⟨_, .nil, rfl⟩
  | num x => exact ⟨_, .num x, rfl⟩
  | bool b => exact ⟨_, .bool b, rfl⟩
  | str s => exact ⟨_, .str s, rfl⟩
  | sym name => exact ⟨_, .sym name, rfl⟩
  | native x => exact ⟨_, .native x, by rw [Value.print, hs.native, Unfolding.text]⟩
  | list l => exact hs.list l (hv _ (List.mem_singleton_self _))
  | dict d => exact hs.dict d (hv _ (List.mem_singleton_self _))
  | quote v ih =>
    obtain ⟨t, ht, htext⟩ := ih hv
    exact ⟨_, .quote ht, by rw [Value.print, htext, Unfolding.text]⟩
  | fullQuote v ih =>
    obtain ⟨t, ht, htext⟩ := ih hv
    exact ⟨_, .fullQuote ht, by rw [Value.print, htext, Unfolding.text]⟩
  | block b ih =>
    obtain ⟨ts, hts, htexts⟩ := exists_unfoldsAll fun w hw => ih w hw (bounded_of_mem_body hv hw)
    refine ⟨_, .block hts, ?_⟩
    obtain ⟨id, name, params, body, env, receiver⟩ := b
    rw [Value.print, printBlock, hs.elideBody, htexts, Unfolding.text]
    rfl

/-- With fuel for all objects that are not around, the objects are printed as they unfold. -/
theorem follows_styleWithin (hh : h.WellFormed) (path : List Ref) (hn : h.outside path ≤ n) :
    h.Follows path (h.styleWithin n path) := by
  -- Below an object that is written in full one object less is left.
  induction hcount : h.outside path using Nat.strong_induction_on generalizing n path with
  | h count ih =>
  subst hcount
  have hbelow : ∀ r ∈ h.nested, r ∉ path → ∃ m, n = m + 1 ∧
      h.Follows (r :: path) (h.styleWithin m (r :: path)) := by
    intro r hr hpath
    have hlt := outside_cons_lt hr hpath
    exact ⟨n - 1, by omega, ih _ hlt (r :: path) (by omega) rfl⟩
  refine ⟨fun l hl => ?_, fun d hd => ?_, styleWithin_native, styleWithin_elideBody⟩
  · by_cases hpath : .list l ∈ path
    · exact ⟨_, .openList hpath, by rw [styleWithin_list hpath, Unfolding.text]⟩
    · obtain ⟨m, rfl, hinner⟩ := hbelow _ (mem_nested_list.mpr hl) hpath
      have hitems : ∀ w ∈ h.items l, h.Bounded w := fun w => bounded_of_mem_allRefs (hh.closed _ hl)
      obtain ⟨ts, hts, htexts⟩ := exists_unfoldsAll fun w hw => hinner.exists_unfolds (hitems w hw)
      exact ⟨_, .list hpath hts, by rw [styleWithin_list_succ hpath, htexts, Unfolding.text]⟩
  · by_cases hpath : .dict (h.owner d) ∈ path
    · exact ⟨_, .openDict hpath, by rw [styleWithin_dict hpath, Unfolding.text]⟩
    · have hown := allocated_owner hh hd
      obtain ⟨m, rfl, hinner⟩ := hbelow _ (mem_nested_dict.mpr hown) hpath
      have hvalues : ∀ w ∈ (h.slots d).map Prod.snd, h.Bounded w := by
        intro w hw
        obtain ⟨⟨name, w⟩, hslot, rfl⟩ := List.mem_map.mp hw
        exact bounded_of_mem_slots hh hd hslot
      obtain ⟨ts, hts, htexts⟩ := exists_unfoldsAll fun w hw => hinner.exists_unfolds (hvalues w hw)
      have hslots : h.slots (h.owner d) = h.slots d := by rw [slots, slots, hh.views]
      refine ⟨_, .dict hpath hts, ?_⟩
      rw [styleWithin_dict_succ hpath, hslots, map_entries, htexts, Unfolding.text, names]

theorem exists_unfolds (hh : h.WellFormed) (hv : h.Bounded v) :
    ∃ t, h.Unfolds [] v t ∧ h.print v = t.text :=
  (follows_styleWithin hh [] outside_le).exists_unfolds hv

/-! Without cycles nothing is left out. -/

theorem Loopless.step (hv : h.Loopless v) (hw : w ∈ h.shows v) : h.Loopless w :=
  fun x hx => hv x (.head hw hx)

def Clear (h : Heap) (path : List Ref) (v : Value) : Prop :=
  h.Loopless v ∧ ∀ w, h.Shown v w → ∀ r, h.object? w = some r → r ∉ path

theorem Clear.step (hv : h.Clear path v) (hw : w ∈ h.shows v) : h.Clear path w :=
  ⟨hv.1.step hw, fun x hx => hv.2 x (.head hw hx)⟩

theorem Clear.enter (hv : h.Clear path v) (hr : h.object? v = some r) (hw : w ∈ h.shows v) :
    h.Clear (r :: path) w := by
  refine ⟨hv.1.step hw, fun x hx s hs hmem => ?_⟩
  cases List.mem_cons.mp hmem with
  | inl heq => exact hv.1 v .refl x (.head' hw hx) r hr (heq ▸ hs)
  | inr hmem => exact hv.2 x (.head hw hx) s hs hmem

mutual
theorem Unfolds.full {path : List Ref} {v : Value} {t : Unfolding} (ht : h.Unfolds path v t)
    (hv : h.Clear path v) : t.Full := by
  cases ht with
  | nil | num | bool | str | sym | native => trivial
  | quote ht => exact ht.full (hv.step List.mem_cons_self)
  | fullQuote ht => exact ht.full (hv.step List.mem_cons_self)
  | block hts => exact hts.full fun w hw => hv.step hw
  | list _ hts => exact hts.full fun w hw => hv.enter rfl hw
  | openList hl => exact hv.2 _ .refl _ rfl hl
  | dict _ hts => exact hts.full fun w hw => hv.enter rfl hw
  | openDict hd => exact hv.2 _ .refl _ rfl hd

theorem UnfoldsAll.full {path : List Ref} {vs : List Value} {ts : List Unfolding}
    (hts : h.UnfoldsAll path vs ts) (hvs : ∀ v ∈ vs, h.Clear path v) : Unfolding.AllFull ts := by
  cases hts with
  | nil => trivial
  | cons ht hts =>
    obtain ⟨hv, hvs⟩ := List.forall_mem_cons.mp hvs
    exact ⟨ht.full hv, hts.full hvs⟩
end

/-! Nothing else of the heap is looked at. -/

mutual
theorem Unfolds.congr {path : List Ref} {v : Value} {t : Unfolding} (ht : h.Unfolds path v t)
    (hv : ∀ w, h.Shown v w → h.LooksAlike k w) : k.Unfolds path v t := by
  have hself := hv v .refl
  cases ht with
  | nil => exact .nil
  | num x => exact .num x
  | bool b => exact .bool b
  | str s => exact .str s
  | sym n => exact .sym n
  | native x => exact hself ▸ .native x
  | quote ht => exact .quote (ht.congr fun w hw => hv w (.head List.mem_cons_self hw))
  | fullQuote ht => exact .fullQuote (ht.congr fun w hw => hv w (.head List.mem_cons_self hw))
  | block hts => exact .block (hts.congr fun v hmem w hw => hv w (.head hmem hw))
  | list hl hts =>
    have hitems := hts.congr fun v hmem w hw => hv w (.head hmem hw)
    exact .list hl (hself ▸ hitems)
  | openList hl => exact .openList hl
  | dict hd hts =>
    have hslots := hts.congr fun v hmem w hw => hv w (.head hmem hw)
    obtain ⟨howner, hsame⟩ := hself
    have hnames : h.names _ = k.names _ := congrArg (List.map Prod.fst) hsame.symm
    rw [hnames]
    rw [← howner] at hd hslots
    rw [← hsame] at hslots
    exact .dict hd hslots
  | openDict hd => exact .openDict (hself.1 ▸ hd)

theorem UnfoldsAll.congr {path : List Ref} {vs : List Value} {ts : List Unfolding}
    (hts : h.UnfoldsAll path vs ts) (hvs : ∀ v ∈ vs, ∀ w, h.Shown v w → h.LooksAlike k w) :
    k.UnfoldsAll path vs ts := by
  cases hts with
  | nil => exact .nil
  | cons ht hts =>
    obtain ⟨hv, hvs⟩ := List.forall_mem_cons.mp hvs
    exact .cons (ht.congr hv) (hts.congr hvs)
end

/-- What is printed is the one unfolding of the value. It is complete if there are no cycles, and
depends on nothing but the items, slots and natives that it shows: neither on the environments of
blocks nor on parents. -/
theorem print_eq_unfolding (hh : h.WellFormed) (hv : h.Bounded v) :
    ∃ t, (∀ u, h.Unfolds [] v u ↔ u = t) ∧ h.print v = t.text ∧ (h.Loopless v → t.Full) ∧
      ∀ k : Heap, k.WellFormed → k.Bounded v → (∀ w, h.Shown v w → h.LooksAlike k w) →
        k.print v = t.text := by
  obtain ⟨t, ht, htext⟩ := exists_unfolds hh hv
  refine ⟨t, fun u => ⟨fun hu => hu.unique ht, fun heq => heq ▸ ht⟩, htext, fun hloopless => ?_,
    fun k hk hvk halike => ?_⟩
  · exact ht.full ⟨hloopless, fun _ _ _ _ => List.not_mem_nil⟩
  · obtain ⟨u, hu, hutext⟩ := exists_unfolds hk hvk
    rw [(ht.congr halike).unique hu]
    exact hutext

/-- A list of a dictionary and its view. The dictionary holds itself. -/
def echo (parent : Option DictId) : Heap where
  lists := #[#[.dict ⟨0⟩, .dict ⟨1⟩]]
  dicts := #[{ slots := Slots.empty.put "me" (.dict ⟨0⟩), parent := parent },
    { target := some ⟨0⟩ }]

theorem wellFormed_echo (p : Option DictId) : (echo p).WellFormed := by
  have hzero : (echo p).Allocated (.dict ⟨0⟩) := Nat.zero_lt_two
  have hone : (echo p).Allocated (.dict ⟨1⟩) := Nat.one_lt_two
  refine ⟨fun r hr s hs => ?_, fun d => ?_, fun d n hn => ?_⟩
  · match r with
    | .list ⟨0⟩ =>
      have hs : s ∈ [Ref.dict ⟨0⟩, .dict ⟨1⟩] := hs
      rw [List.mem_pair] at hs
      obtain rfl | rfl := hs
      · exact hzero
      · exact hone
    | .dict ⟨0⟩ | .dict ⟨1⟩ => exact List.mem_singleton.mp hs ▸ hzero
    | .list ⟨n + 1⟩ => exact absurd hr (Nat.not_lt.mpr (Nat.le_add_left 1 n))
    | .dict ⟨n + 2⟩ => exact absurd hr (Nat.not_lt.mpr (Nat.le_add_left 2 n))
    | .native x => exact absurd hr (Nat.not_lt_zero _)
  · match d with
    | ⟨0⟩ | ⟨1⟩ | ⟨_ + 2⟩ => rfl
  · match d with
    | ⟨0⟩ | ⟨1⟩ =>
      obtain rfl : n = "me" := List.mem_singleton.mp hn
      decide
    | ⟨_ + 2⟩ => exact absurd hn List.not_mem_nil

/-- The view is written like its target, and the parent, which closes another cycle, is not. -/
theorem print_echo : ∃ t, (echo none).Unfolds [] (.list ⟨0⟩) t ∧
    (echo none).print (.list ⟨0⟩) = t.text ∧ (echo (some ⟨1⟩)).print (.list ⟨0⟩) = t.text := by
  have hbounded : ∀ p, (echo p).Bounded (.list ⟨0⟩) :=
    fun p r hr => List.mem_singleton.mp hr ▸ Nat.zero_lt_one
  obtain ⟨t, ht, htext, -, hsame⟩ := print_eq_unfolding (wellFormed_echo none) (hbounded none)
  refine ⟨t, (ht t).mpr rfl, htext, hsame _ (wellFormed_echo _) (hbounded _) fun w _ => ?_⟩
  match w with
  | .dict ⟨0⟩ | .dict ⟨1⟩ | .dict ⟨_ + 2⟩ => exact ⟨rfl, rfl⟩
  | .list _ | .native _ => rfl
  | .nil | .num _ | .bool _ | .str _ | .sym _ | .quote _ | .fullQuote _ | .block _ => trivial

example : (echo none).print (.list ⟨0⟩) =
    "[\x7bme = \x7b...\x7d\x7d \x7bme = \x7b...\x7d\x7d]" := by
  decide

end Heap
end DictScript
