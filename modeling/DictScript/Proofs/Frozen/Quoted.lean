import DictScript.Proofs.Frozen.Grammar
import DictScript.Proofs.Parents.Thawing

/-!
What stands inside of a full quote in a stream. A value can be read in one way only, so a full quote
reaches exactly as far as the value behind it. A thaw that reads token after token attaches what it
opens to the scope or not, just as that says.
-/
namespace DictScript
open Heap
variable {T T' : List Opened} {f : Phrase} {g : Given} {ts us a b : List Token} {tok : Token}
variable {n : Nat}

/-! There is one way to read. -/

def remaining : List Expected → List Token → Option (List Token)
  | [], ts => some ts
  | _ :: _, [] => none
  | .value :: st, t :: ts => remaining (t.expects st) ts
  | .items :: st, t :: ts =>
    match t with
    | .mark .listClose => remaining st ts
    | t => remaining (t.expects (.items :: st)) ts
  | .entries :: st, t :: ts =>
    match t with
    | .mark .dictClose => remaining st ts
    | .str _ => remaining (.value :: .entries :: st) ts
    | _ => none
  | .name :: st, t :: ts =>
    match t with
    | .null => remaining st ts
    | .str _ => remaining st ts
    | _ => none
  | .blockEnd :: st, t :: ts =>
    match t with
    | .mark .blockClose => remaining st ts
    | _ => none

theorem Derives.remaining_items (hts : Derives T (.value g) ts T') (st : List Expected)
    (rest : List Token) :
    remaining (.items :: st) (ts ++ rest) = remaining (.value :: .items :: st) (ts ++ rest) := by
  obtain ⟨t, ts', rfl, ht⟩ := hts.exists_cons
  rw [List.cons_append, remaining, remaining]
  exact ht

/-- What is left behind a phrase, and behind the mark that closes it, does not depend on it. -/
theorem Derives.remaining (hts : Derives T f ts T') (st : List Expected) (rest : List Token) :
    remaining (f.expected :: st) (ts ++ (f.closing ++ rest)) = DictScript.remaining st rest := by
  induction hts generalizing st rest with
  | quote _ ih => exact ih st rest
  | fullQuote _ ih => exact ih st rest
  | list _ ih =>
    rw [List.cons_append, List.append_assoc]
    exact ih st rest
  | dict _ ih =>
    rw [List.cons_append, List.append_assoc]
    exact ih st rest
  | @block _ _ _ _ name _ _ _ ps es bs hname _ _ _ _ _ ih₁ ih₂ ih₃ =>
    have hps := ih₁ (.value :: .value :: .blockEnd :: st) (es ++ (bs ++ .mark .blockClose :: rest))
    have hes := ih₂ (.value :: .blockEnd :: st) (bs ++ .mark .blockClose :: rest)
    have hbs := ih₃ (.blockEnd :: st) (.mark .blockClose :: rest)
    simp only [List.cons_append, List.append_assoc, List.nil_append, Phrase.closing,
      Phrase.expected] at hps hes hbs ⊢
    have hchain := (hps.trans hes).trans hbs
    obtain rfl | ⟨text, rfl⟩ := hname
    · exact hchain
    · exact hchain
  | noItem => rfl
  | @item _ _ _ _ _ ts ts' hts _ ih₁ ih₂ =>
    have hone := ih₁ (.items :: st) (ts' ++ (.mark .listClose :: rest))
    rw [List.append_assoc]
    exact (hts.remaining_items st _).trans (hone.trans (ih₂ st rest))
  | noEntry => rfl
  | @entry _ _ _ _ ts ts' key _ _ ih₁ ih₂ =>
    have hone := ih₁ (.entries :: st) (ts' ++ (.mark .dictClose :: rest))
    rw [List.cons_append, List.append_assoc]
    exact hone.trans (ih₂ st rest)
  | _ => rfl

def Readable (ts : List Token) : Prop := ∃ T g T', Derives T (.value g) ts T'

theorem Readable.remaining (hts : Readable ts) (rest : List Token) :
    DictScript.remaining [.value] (ts ++ rest) = some rest := by
  obtain ⟨_, _, _, hts⟩ := hts
  have hrest := hts.remaining [] rest
  rwa [DictScript.remaining] at hrest

/-- No value is the beginning of another one. -/
theorem Readable.eq_of_append (hts : Readable ts) (hus : Readable us) (heq : ts ++ a = us ++ b) :
    ts = us := by
  have hab : some a = some b := calc
    some a = DictScript.remaining [.value] (ts ++ a) := (hts.remaining a).symm
    _ = DictScript.remaining [.value] (us ++ b) := by rw [heq]
    _ = some b := hus.remaining b
  rw [Option.some.inj hab] at heq
  exact List.append_cancel_right heq

/-! Full quotes. -/

/-- The token at `n` stands inside of a full quote: the quoted value reaches from the mark to the
token or beyond. -/
def Quoted (ts : List Token) (n : Nat) : Prop :=
  ∃ before val after, ts = before ++ .mark .fullQuote :: (val ++ after) ∧ Readable val ∧
    before.length < n ∧ n ≤ before.length + val.length

def QuotesWhole (ts : List Token) : Prop :=
  ∀ before rest, ts = before ++ .mark .fullQuote :: rest →
    ∃ val after, rest = val ++ after ∧ Readable val

theorem quotesWhole_nil : QuotesWhole [] := by
  intro before rest heq
  simp at heq

theorem QuotesWhole.cons (htok : tok ≠ .mark .fullQuote) (hts : QuotesWhole ts) :
    QuotesWhole (tok :: ts) := by
  intro before rest heq
  cases before with
  | nil => exact (htok (List.cons.inj heq).1).elim
  | cons _ before => exact hts before rest (List.cons.inj heq).2

/-- A token of two stretches stands in the one or in the other. -/
theorem append_eq_append_cons {before rest : List Token} (heq : ts ++ us = before ++ tok :: rest) :
    (∃ mid, ts = before ++ tok :: mid ∧ rest = mid ++ us) ∨
      ∃ mid, before = ts ++ mid ∧ us = mid ++ tok :: rest := by
  obtain ⟨mid, hbefore, hus⟩ | ⟨mid, hts, hrest⟩ := List.append_eq_append_iff.mp heq
  · exact .inr ⟨mid, hbefore, hus⟩
  · cases mid with
    | nil => exact .inr ⟨[], by simpa using hts.symm, hrest.symm⟩
    | cons tok' mid =>
      obtain ⟨rfl, rfl⟩ := List.cons.inj hrest
      exact .inl ⟨mid, hts, rfl⟩

theorem QuotesWhole.append (hts : QuotesWhole ts) (hus : QuotesWhole us) :
    QuotesWhole (ts ++ us) := by
  intro before rest heq
  obtain ⟨mid, hmid, rfl⟩ | ⟨mid, -, hmid⟩ := append_eq_append_cons heq
  · obtain ⟨val, after, rfl, hval⟩ := hts before mid hmid
    exact ⟨val, after ++ us, List.append_assoc _ _ _, hval⟩
  · exact hus mid rest hmid

theorem QuotesWhole.fullQuote (hts : QuotesWhole ts) (hval : Readable ts) :
    QuotesWhole (.mark .fullQuote :: ts) := by
  intro before rest heq
  cases before with
  | nil =>
    obtain rfl : ts = rest := (List.cons.inj heq).2
    exact ⟨ts, [], (List.append_nil ts).symm, hval⟩
  | cons _ before => exact hts before rest (List.cons.inj heq).2

theorem Derives.quotesWhole (hts : Derives T f ts T') : QuotesWhole ts := by
  induction hts with
  | quote _ ih => exact ih.cons (by simp)
  | fullQuote hts ih => exact ih.fullQuote ⟨_, _, _, hts⟩
  | list _ ih => exact (ih.append (quotesWhole_nil.cons (by simp))).cons (by simp)
  | dict _ ih => exact (ih.append (quotesWhole_nil.cons (by simp))).cons (by simp)
  | block hname _ _ _ _ _ ih₁ ih₂ ih₃ =>
    have hclose : QuotesWhole [.mark .blockClose] := quotesWhole_nil.cons (by simp)
    refine .cons (by simp) (.cons ?_ (ih₁.append (ih₂.append (ih₃.append hclose))))
    obtain rfl | ⟨text, rfl⟩ := hname <;> simp
  | noItem => exact quotesWhole_nil
  | item _ _ ih₁ ih₂ => exact ih₁.append ih₂
  | noEntry => exact quotesWhole_nil
  | entry key _ _ ih₁ ih₂ => exact (ih₁.append ih₂).cons (by simp)
  | _ => exact quotesWhole_nil.cons (by simp)

/-- A full quote does not reach beyond the stretch in which it stands. -/
theorem QuotesWhole.within (hts : QuotesWhole ts) {before val after : List Token}
    (heq : ts ++ us = before ++ .mark .fullQuote :: (val ++ after)) (hval : Readable val) :
    (∃ after', ts = before ++ .mark .fullQuote :: (val ++ after')) ∨
      ∃ mid, before = ts ++ mid ∧ us = mid ++ .mark .fullQuote :: (val ++ after) := by
  refine (append_eq_append_cons heq).imp_left ?_
  rintro ⟨mid, hmid, hrest⟩
  obtain ⟨val', after', rfl, hval'⟩ := hts before mid hmid
  obtain rfl : val = val' := hval.eq_of_append hval' (hrest.trans (List.append_assoc _ _ _))
  exact ⟨after', hmid⟩

theorem quoted_append_left (hts : QuotesWhole ts) (hn : n < ts.length) :
    Quoted (ts ++ us) n ↔ Quoted ts n := by
  constructor
  · rintro ⟨before, val, after, heq, hval, hlt, hle⟩
    obtain ⟨after', heq⟩ | ⟨mid, rfl, -⟩ := hts.within heq hval
    · exact ⟨before, val, after', heq, hval, hlt, hle⟩
    · rw [List.length_append] at hlt
      omega
  · rintro ⟨before, val, after, rfl, hval, hlt, hle⟩
    exact ⟨before, val, after ++ us, by simp, hval, hlt, hle⟩

theorem quoted_append_right (hts : QuotesWhole ts) :
    Quoted (ts ++ us) (ts.length + n) ↔ Quoted us n := by
  constructor
  · rintro ⟨before, val, after, heq, hval, hlt, hle⟩
    obtain ⟨after', rfl⟩ | ⟨mid, rfl, rfl⟩ := hts.within heq hval
    · simp only [List.length_append, List.length_cons] at hle
      omega
    · rw [List.length_append] at hlt hle
      exact ⟨mid, val, after, rfl, hval, by omega, by omega⟩
  · rintro ⟨before, val, after, rfl, hval, hlt, hle⟩
    refine ⟨ts ++ before, val, after, by simp, hval, ?_, ?_⟩
    · rw [List.length_append]
      omega
    · rw [List.length_append]
      omega

/-- All of the value behind a full quote stands inside of it. -/
theorem quoted_fullQuote (hts : Readable ts) (hn : n < ts.length) :
    Quoted (.mark .fullQuote :: ts) (n + 1) :=
  ⟨[], ts, [], by simp, hts, Nat.succ_pos n, by simpa using hn⟩

/-! What a thaw attaches. -/

def DictCell.bare (c : DictCell) : DictCell := { c with slots := .empty }

theorem bare_put (h : Heap) (d : DictId) (name : String) (v : Value) (c : DictId) :
    ((h.put d name v).cell c).bare = (h.cell c).bare := by
  simp only [put, modifyCell, cell, Array.getD_eq_getD_getElem?, Array.getElem?_modify]
  split
  · cases h.dicts[c.index]? <;> rfl
  · rfl

namespace Thaw
variable {scope : Option DictId} {inert : Bool} {t t' t₁ t₂ : Thawer}

open Classical in
/-- To get from `t` to `t'` the thaw has read the tokens, which all stand inside of a full quote if
it is inert. All dictionaries that are there keep their links. New ones have none but the scope for
a parent, and those that are opened have it just if they stand inside of no full quote. -/
structure Attaches (scope : Option DictId) (inert : Bool) (ts : List Token) (t t' : Thawer) :
    Prop where
  size : t'.table.size = t.table.size + ts.countP Token.opens
  keeps : Keeps t t'
  dicts : t.heap.dicts.size ≤ t'.heap.dicts.size
  old : ∀ d : DictId, d.index < t.heap.dicts.size →
    (t'.heap.cell d).bare = (t.heap.cell d).bare
  new : ∀ d : DictId, t.heap.dicts.size ≤ d.index → d.index < t'.heap.dicts.size →
    (t'.heap.cell d).bare = {} ∨ (t'.heap.cell d).bare = { parent := scope }
  opened : ∀ n, ts[n]? = some (.mark .dictOpen) → ∃ d : DictId,
    t'.table[t.table.size + (ts.take n).countP Token.opens]? = some (.dict d) ∧
      t.heap.dicts.size ≤ d.index ∧ d.index < t'.heap.dicts.size ∧
      (t'.heap.cell d).bare = { parent := if inert = true ∨ Quoted ts n then none else scope }

theorem not_dictOpen_of_countP (hts : ts.countP Token.opens = 0) (n : Nat) :
    ts[n]? ≠ some (.mark .dictOpen) := by
  intro hn
  exact List.countP_eq_zero.mp hts _ (List.mem_of_getElem? hn) rfl

/-- Nothing is opened, and no links are changed. -/
theorem attaches_of_same (hts : ts.countP Token.opens = 0) (htable : t'.table = t.table)
    (hdicts : t'.heap.dicts = t.heap.dicts) : Attaches scope inert ts t t' where
  size := by rw [htable, hts, Nat.add_zero]
  keeps := fun _ _ hi => htable ▸ hi
  dicts := by rw [hdicts]
  old d _ := by rw [cell_congr hdicts]
  new d hle hlt := by
    rw [hdicts] at hlt
    omega
  opened n hn := (not_dictOpen_of_countP hts n hn).elim

theorem attaches_put (t : Thawer) (d : DictId) (name : String) (v : Value) :
    Attaches scope inert [] t { t with heap := t.heap.put d name v } where
  size := rfl
  keeps := .refl t
  dicts := by simp [put, modifyCell]
  old c _ := bare_put _ _ _ _ _
  new c hle hlt := by
    simp only [put, modifyCell, Array.size_modify] at hlt
    omega
  opened n hn := by simp at hn

/-- An environment that a block gets for want of another has no parent. -/
theorem attaches_newDict (t : Thawer) :
    Attaches scope inert [] t { t with heap := (t.heap.newDict {}).1 } where
  size := rfl
  keeps := .refl t
  dicts := by simp [Heap.newDict]
  old c hc := by rw [cell_newDict, if_neg (by omega)]
  new c hle hlt := by
    simp only [Heap.newDict, Array.size_push] at hlt
    rw [cell_newDict, if_pos (by omega)]
    exact .inl rfl
  opened n hn := by simp at hn

theorem keeps_push (v : Value) (htable : t'.table = t.table.push v) : Keeps t t' := by
  intro i w hi
  have hlt : i < t.table.size := (Array.getElem?_eq_some_iff.mp hi).1
  rw [htable, Array.getElem?_push, if_neg (by omega)]
  exact hi

theorem attaches_openList (v : Value) (htable : t'.table = t.table.push v)
    (hdicts : t'.heap.dicts = t.heap.dicts) :
    Attaches scope inert [.mark .listOpen] t t' where
  size := by simp [htable, Token.opens]
  keeps := keeps_push v htable
  dicts := by rw [hdicts]
  old d _ := by rw [cell_congr hdicts]
  new d hle hlt := by
    rw [hdicts] at hlt
    omega
  opened n hn := by cases n <;> simp at hn

theorem not_quoted_singleton (tok : Token) : ¬ Quoted [tok] 0 := by
  rintro ⟨before, val, after, -, -, hlt, -⟩
  exact Nat.not_lt_zero _ hlt

theorem attaches_openDict (t : Thawer) (rest : List Token) : Attaches scope inert
    [.mark .dictOpen] t (Heap.openDict t (if inert then none else scope) rest) where
  size := by simp [Heap.openDict, Token.opens]
  keeps := keeps_push _ rfl
  dicts := by simp [Heap.openDict, Heap.newDict]
  old d hd := by rw [cell_openDict, if_neg (by omega)]
  new d hle hlt := by
    simp only [Heap.openDict, Heap.newDict, dicts_hold, Array.size_push] at hlt
    rw [cell_openDict, if_pos (by omega)]
    cases inert with
    | true => exact .inl rfl
    | false => exact .inr rfl
  opened n hn := by
    obtain rfl : n = 0 := by
      cases n with
      | zero => rfl
      | succ n => simp at hn
    refine ⟨⟨t.heap.dicts.size⟩, by simp [Heap.openDict], le_refl _, ?_, ?_⟩
    · simp [Heap.openDict, Heap.newDict]
    · rw [cell_openDict, if_pos rfl]
      cases inert <;> simp [DictCell.bare, not_quoted_singleton]

/-- One stretch is read after another. -/
theorem Attaches.trans (h₁ : Attaches scope inert ts t t₁) (hts : QuotesWhole ts)
    (h₂ : Attaches scope inert us t₁ t₂) : Attaches scope inert (ts ++ us) t t₂ where
  size := by rw [h₂.size, h₁.size, List.countP_append, Nat.add_assoc]
  keeps := h₁.keeps.trans h₂.keeps
  dicts := h₁.dicts.trans h₂.dicts
  old d hd := (h₂.old d (hd.trans_le h₁.dicts)).trans (h₁.old d hd)
  new d hle hlt := by
    by_cases hd : d.index < t₁.heap.dicts.size
    · rw [h₂.old d hd]
      exact h₁.new d hle hd
    · exact h₂.new d (Nat.not_lt.mp hd) hlt
  opened n hn := by
    by_cases hlt : n < ts.length
    · rw [List.getElem?_append_left hlt] at hn
      obtain ⟨d, hd, hle, hdlt, hbare⟩ := h₁.opened n hn
      refine ⟨d, ?_, hle, hdlt.trans_le h₂.dicts, ?_⟩
      · rw [List.take_append_of_le_length hlt.le]
        exact h₂.keeps _ _ hd
      · rw [h₂.old d hdlt, hbare, quoted_append_left hts hlt]
    · obtain ⟨i, rfl⟩ := Nat.exists_eq_add_of_le (Nat.not_lt.mp hlt)
      rw [List.getElem?_append_right (Nat.le_add_right _ _), Nat.add_sub_cancel_left] at hn
      obtain ⟨d, hd, hle, hdlt, hbare⟩ := h₂.opened i hn
      refine ⟨d, ?_, h₁.dicts.trans hle, hdlt, ?_⟩
      · rw [List.take_length_add_append, List.countP_append, ← Nat.add_assoc, ← h₁.size]
        exact hd
      · rw [hbare, quoted_append_right hts]

/-- What is quoted in full is read as inert. -/
theorem Attaches.fullQuote (hval : Readable ts) (hts : Attaches scope true ts t t') :
    Attaches scope inert (.mark .fullQuote :: ts) t t' where
  size := hts.size
  keeps := hts.keeps
  dicts := hts.dicts
  old := hts.old
  new := hts.new
  opened n hn := by
    cases n with
    | zero => simp at hn
    | succ n =>
      rw [List.getElem?_cons_succ] at hn
      have hlt : n < ts.length := (List.getElem?_eq_some_iff.mp hn).1
      obtain ⟨d, hd, hle, hdlt, hbare⟩ := hts.opened n hn
      refine ⟨d, hd, hle, hdlt, ?_⟩
      rw [hbare, if_pos (.inl rfl), if_pos (.inr (quoted_fullQuote hval hlt))]

/-- Tokens that open nothing are read first. -/
theorem Attaches.after (hus : Attaches scope inert us t₁ t₂) (hts : ts.countP Token.opens = 0)
    (hwhole : QuotesWhole ts) (htable : t₁.table = t.table)
    (hdicts : t₁.heap.dicts = t.heap.dicts) : Attaches scope inert (ts ++ us) t t₂ :=
  (attaches_of_same hts htable hdicts).trans hwhole hus

theorem Attaches.begins (hus : Attaches scope inert us t₁ t₂) (htable : t₁.table = t.table)
    (hdicts : t₁.heap.dicts = t.heap.dicts) : Attaches scope inert us t t₂ :=
  hus.after rfl quotesWhole_nil htable hdicts

/-- A mark that opens nothing is read last. -/
theorem Attaches.close {m : Mark} (h₁ : Attaches scope inert ts t t₁) (hts : QuotesWhole ts)
    (hm : (Token.mark m).opens = false) (htable : t₂.table = t₁.table)
    (hdicts : t₂.heap.dicts = t₁.heap.dicts) : Attaches scope inert (ts ++ [.mark m]) t t₂ :=
  h₁.trans hts (attaches_of_same (by simp [hm]) htable hdicts)

end Thaw
end DictScript
