import Mathlib
import DictScript.Suggestion

/-!
The distance of two words is the least number of edits that turn one into the other. The edits of a
script come in any order and anywhere; put in order they align the two words letter by letter, and
the table holds the cost of the cheapest alignment of each two beginnings.
-/
namespace DictScript
namespace Spelling
variable {xs ys zs : List Char} {y c : Char} {m n : Nat}

inductive Edit : List Char → List Char → Prop where
  | insert (before behind : List Char) (c : Char) : Edit (before ++ behind) (before ++ c :: behind)
  | delete (before behind : List Char) (c : Char) : Edit (before ++ c :: behind) (before ++ behind)
  | replace (before behind : List Char) (c d : Char) :
      Edit (before ++ c :: behind) (before ++ d :: behind)

inductive Edits : Nat → List Char → List Char → Prop where
  | none (xs : List Char) : Edits 0 xs xs
  | more {n : Nat} {xs ys zs : List Char} : Edits n xs ys → Edit ys zs → Edits (n + 1) xs zs

namespace Edit

theorem symm (he : Edit xs ys) : Edit ys xs := by
  cases he with
  | insert before behind c => exact .delete before behind c
  | delete before behind c => exact .insert before behind c
  | replace before behind c d => exact .replace before behind d c

theorem cons (c : Char) (he : Edit xs ys) : Edit (c :: xs) (c :: ys) := by
  cases he with
  | insert before behind d => exact .insert (c :: before) behind d
  | delete before behind d => exact .delete (c :: before) behind d
  | replace before behind d e => exact .replace (c :: before) behind d e

theorem reverse (he : Edit xs ys) : Edit xs.reverse ys.reverse := by
  cases he with
  | insert before behind c => simpa using Edit.insert behind.reverse before.reverse c
  | delete before behind c => simpa using Edit.delete behind.reverse before.reverse c
  | replace before behind c d => simpa using Edit.replace behind.reverse before.reverse c d

theorem of_nil (he : Edit [] zs) : ∃ c, zs = [c] := by
  generalize hxs : ([] : List Char) = xs at he
  cases he with
  | insert before behind c =>
    obtain ⟨rfl, rfl⟩ := List.append_eq_nil_iff.mp hxs.symm
    exact ⟨c, rfl⟩
  | delete before behind c => simp at hxs
  | replace before behind c d => simp at hxs

/-- An edit is at the first letter or behind it. -/
theorem of_cons (he : Edit (y :: ys) zs) : (∃ c, zs = c :: y :: ys) ∨ zs = ys ∨
    (∃ c, zs = c :: ys) ∨ ∃ ws, zs = y :: ws ∧ Edit ys ws := by
  generalize hxs : y :: ys = xs at he
  cases he with
  | insert before behind c =>
    cases before with
    | nil =>
      obtain rfl : y :: ys = behind := hxs
      exact .inl ⟨c, rfl⟩
    | cons b before =>
      obtain ⟨rfl, rfl⟩ := List.cons.inj hxs
      exact .inr (.inr (.inr ⟨_, rfl, .insert before behind c⟩))
  | delete before behind c =>
    cases before with
    | nil =>
      obtain ⟨rfl, rfl⟩ := List.cons.inj hxs
      exact .inr (.inl rfl)
    | cons b before =>
      obtain ⟨rfl, rfl⟩ := List.cons.inj hxs
      exact .inr (.inr (.inr ⟨_, rfl, .delete before behind c⟩))
  | replace before behind c d =>
    cases before with
    | nil =>
      obtain ⟨rfl, rfl⟩ := List.cons.inj hxs
      exact .inr (.inr (.inl ⟨d, rfl⟩))
    | cons b before =>
      obtain ⟨rfl, rfl⟩ := List.cons.inj hxs
      exact .inr (.inr (.inr ⟨_, rfl, .replace before behind c d⟩))

end Edit

namespace Edits

theorem trans (hxy : Edits m xs ys) (hyz : Edits n ys zs) : Edits (m + n) xs zs := by
  induction hyz with
  | none => exact hxy
  | more _ he ih => exact (ih hxy).more he

theorem single (he : Edit xs ys) : Edits 1 xs ys := .more (.none xs) he

theorem symm (hxy : Edits n xs ys) : Edits n ys xs := by
  induction hxy with
  | none xs => exact .none xs
  | @more n xs ys zs _ he ih => exact Nat.add_comm 1 n ▸ (single he.symm).trans ih

theorem cons (c : Char) (hxy : Edits n xs ys) : Edits n (c :: xs) (c :: ys) := by
  induction hxy with
  | none xs => exact .none (c :: xs)
  | more _ he ih => exact ih.more (he.cons c)

theorem reverse (hxy : Edits n xs ys) : Edits n xs.reverse ys.reverse := by
  induction hxy with
  | none xs => exact .none xs.reverse
  | more _ he ih => exact ih.more he.reverse

theorem reverse_iff : Edits n xs.reverse ys.reverse ↔ Edits n xs ys :=
  ⟨fun hxy => by simpa using hxy.reverse, reverse⟩

/-- A word is written letter by letter. -/
theorem length (ys : List Char) : Edits ys.length [] ys := by
  induction ys with
  | nil => exact .none []
  | cons c ys ih => exact ih.more (.insert [] ys c)

theorem zero_iff : Edits 0 xs ys ↔ xs = ys := by
  constructor
  · intro hxy
    cases hxy
    rfl
  · rintro rfl
    exact .none xs

end Edits

/-! Edits in order. -/

inductive Aligned : Nat → List Char → List Char → Prop where
  | nil (n : Nat) : Aligned n [] []
  | keep {n : Nat} {xs ys : List Char} (c : Char) : Aligned n xs ys → Aligned n (c :: xs) (c :: ys)
  | replace {n : Nat} {xs ys : List Char} (c d : Char) :
      Aligned n xs ys → Aligned (n + 1) (c :: xs) (d :: ys)
  | delete {n : Nat} {xs ys : List Char} (c : Char) : Aligned n xs ys → Aligned (n + 1) (c :: xs) ys
  | insert {n : Nat} {xs ys : List Char} (c : Char) : Aligned n xs ys → Aligned (n + 1) xs (c :: ys)

namespace Aligned

theorem refl (xs : List Char) : Aligned 0 xs xs := by
  induction xs with
  | nil => exact .nil 0
  | cons c xs ih => exact .keep c ih

theorem succ (ha : Aligned n xs ys) : Aligned (n + 1) xs ys := by
  induction ha with
  | nil n => exact .nil (n + 1)
  | keep c _ ih => exact .keep c ih
  | replace c d _ ih => exact .replace c d ih
  | delete c _ ih => exact .delete c ih
  | insert c _ ih => exact .insert c ih

theorem symm (ha : Aligned n xs ys) : Aligned n ys xs := by
  induction ha with
  | nil n => exact .nil n
  | keep c _ ih => exact .keep c ih
  | replace c d _ ih => exact .replace d c ih
  | delete c _ ih => exact .insert c ih
  | insert c _ ih => exact .delete c ih

/-- One more edit fits into its place, at a cost of one. -/
theorem edit (ha : Aligned n xs ys) (he : Edit ys zs) : Aligned (n + 1) xs zs := by
  induction ha generalizing zs with
  | nil n =>
    obtain ⟨c, rfl⟩ := he.of_nil
    exact .insert c (.nil n)
  | @keep n xs ys c ha ih =>
    obtain ⟨d, rfl⟩ | rfl | ⟨d, rfl⟩ | ⟨ws, rfl, hrest⟩ := he.of_cons
    · exact .insert d (.keep c ha)
    · exact .delete c ha
    · exact .replace c d ha
    · exact .keep c (ih hrest)
  | @replace n xs ys c e ha ih =>
    obtain ⟨d, rfl⟩ | rfl | ⟨d, rfl⟩ | ⟨ws, rfl, hrest⟩ := he.of_cons
    · exact .insert d (.replace c e ha)
    · exact (Aligned.delete c ha).succ
    · exact (Aligned.replace c d ha).succ
    · exact .replace c e (ih hrest)
  | @delete n xs ys c ha ih => exact .delete c (ih he)
  | @insert n xs ys e ha ih =>
    obtain ⟨d, rfl⟩ | rfl | ⟨d, rfl⟩ | ⟨ws, rfl, hrest⟩ := he.of_cons
    · exact .insert d (.insert e ha)
    · exact ha.succ.succ
    · exact (Aligned.insert d ha).succ
    · exact .insert e (ih hrest)

/-- It costs nothing more to keep a letter that is the same. -/
theorem strip (ha : Aligned n (c :: xs) (c :: ys)) : Aligned n xs ys := by
  cases ha with
  | keep _ ha => exact ha
  | replace _ _ ha => exact ha.succ
  | delete _ ha => exact ha.edit (.delete [] ys c)
  | insert _ ha => exact (ha.symm.edit (.delete [] xs c)).symm

theorem length_le_left (ha : Aligned n xs []) : xs.length ≤ n := by
  generalize hys : ([] : List Char) = ys at ha
  induction ha with
  | nil n => exact Nat.zero_le n
  | delete c _ ih => exact Nat.succ_le_succ (ih hys)
  | keep | replace | insert => cases hys

end Aligned

theorem Edits.aligned (hxy : Edits n xs ys) : Aligned n xs ys := by
  induction hxy with
  | none xs => exact .refl xs
  | more _ he ih => exact ih.edit he

/-! The cheapest alignment. -/

def cost : List Char → List Char → Nat
  | [], ys => ys.length
  | xs, [] => xs.length
  | x :: xs, y :: ys =>
    if x = y then cost xs ys
    else 1 + min (min (cost xs ys) (cost xs (y :: ys))) (cost (x :: xs) ys)
termination_by xs ys => xs.length + ys.length

theorem cost_nil_left (ys : List Char) : cost [] ys = ys.length := by
  rw [cost]

theorem cost_nil_right (xs : List Char) : cost xs [] = xs.length := by
  cases xs with
  | nil => rw [cost]
  | cons x xs => rw [cost]; simp

theorem cost_cons_cons (x y : Char) (xs ys : List Char) : cost (x :: xs) (y :: ys) =
    if x = y then cost xs ys
    else 1 + min (min (cost xs ys) (cost xs (y :: ys))) (cost (x :: xs) ys) := by
  rw [cost]

theorem Aligned.cost_le (ha : Aligned n xs ys) : cost xs ys ≤ n := by
  induction xs, ys using cost.induct generalizing n with
  | case1 ys => exact cost_nil_left ys ▸ ha.symm.length_le_left
  | case2 xs _ => exact cost_nil_right xs ▸ ha.length_le_left
  | case3 xs c ys ih =>
    rw [cost_cons_cons, if_pos rfl]
    exact ih ha.strip
  | case4 x xs y ys hne ihReplace ihDelete ihInsert =>
    rw [cost_cons_cons, if_neg hne]
    cases ha with
    | keep _ _ => exact (hne rfl).elim
    | replace _ _ ha => have := ihReplace ha; omega
    | delete _ ha => have := ihDelete ha; omega
    | insert _ ha => have := ihInsert ha; omega

/-- A script of the least cost. -/
theorem edits_cost (xs ys : List Char) : Edits (cost xs ys) xs ys := by
  induction xs, ys using cost.induct with
  | case1 ys => exact cost_nil_left ys ▸ .length ys
  | case2 xs _ => exact cost_nil_right xs ▸ (Edits.length xs).symm
  | case3 xs c ys ih =>
    rw [cost_cons_cons, if_pos rfl]
    exact ih.cons c
  | case4 x xs y ys hne ihReplace ihDelete ihInsert =>
    rw [cost_cons_cons, if_neg hne]
    have hreplace : Edits (1 + cost xs ys) (x :: xs) (y :: ys) :=
      (Edits.single (.replace [] xs x y)).trans (ihReplace.cons y)
    have hdelete : Edits (1 + cost xs (y :: ys)) (x :: xs) (y :: ys) :=
      (Edits.single (.delete [] xs x)).trans ihDelete
    have hinsert : Edits (cost (x :: xs) ys + 1) (x :: xs) (y :: ys) :=
      ihInsert.more (.insert [] ys y)
    rcases min_choice (min (cost xs ys) (cost xs (y :: ys))) (cost (x :: xs) ys) with hmin | hmin
    · rw [hmin]
      rcases min_choice (cost xs ys) (cost xs (y :: ys)) with hmin | hmin
      · rwa [hmin]
      · rwa [hmin]
    · rwa [hmin, Nat.add_comm]

/-! The table. Its rows belong to longer and longer beginnings of one word, and their entries to
those of the other; read backwards, a beginning is extended at the front. -/

def costs (xs done : List Char) : List Char → List Nat
  | [] => []
  | y :: rest => cost xs (y :: done) :: costs xs (y :: done) rest

theorem costs_nil (done rest : List Char) :
    costs [] done rest = List.range' (done.length + 1) rest.length := by
  induction rest generalizing done with
  | nil => rfl
  | cons y rest ih => rw [costs, cost_nil_left, ih, List.length_cons, List.length_cons,
      List.range'_succ]

theorem fillRow_costs (c : Char) (xs done rest : List Char) :
    fillRow c (cost (c :: xs) done) (cost xs done) rest (costs xs done rest) =
      costs (c :: xs) done rest := by
  induction rest generalizing done with
  | nil => rfl
  | cons y rest ih =>
    have hcost := cost_cons_cons c y xs done
    simp only [costs, fillRow, ← hcost, ih]

theorem nextRow_costs (word xs : List Char) (c : Char) :
    nextRow word (cost xs [] :: costs xs [] word) c =
      cost (c :: xs) [] :: costs (c :: xs) [] word := by
  have hfirst : cost xs [] + 1 = cost (c :: xs) [] := by
    rw [cost_nil_right, cost_nil_right, List.length_cons]
  rw [nextRow, hfirst, fillRow_costs]

theorem foldl_nextRow (word as xs : List Char) :
    as.foldl (nextRow word) (cost xs [] :: costs xs [] word) =
      cost (as.reverse ++ xs) [] :: costs (as.reverse ++ xs) [] word := by
  induction as generalizing xs with
  | nil => rfl
  | cons c as ih =>
    rw [List.foldl_cons, nextRow_costs, ih, List.reverse_cons, List.append_assoc,
      List.singleton_append]

theorem getLast?_costs (xs done rest : List Char) :
    (cost xs done :: costs xs done rest).getLast? = some (cost xs (rest.reverse ++ done)) := by
  induction rest generalizing done with
  | nil => rfl
  | cons y rest ih =>
    rw [costs, List.getLast?_cons_cons, ih, List.reverse_cons, List.append_assoc,
      List.singleton_append]

end Spelling

open Spelling
variable {a b : String} {n : Nat}

theorem editDistance_eq_cost (a b : String) :
    editDistance a b = cost a.toList.reverse b.toList.reverse := by
  have hstart : List.range (b.toList.length + 1) = cost [] [] :: costs [] [] b.toList := by
    rw [costs_nil, cost_nil_left, List.range_eq_range', List.range'_succ]
    rfl
  simp only [editDistance]
  rw [hstart, foldl_nextRow, getLast?_costs, Option.getD_some, List.append_nil, List.append_nil]

theorem edits_editDistance (a b : String) : Edits (editDistance a b) a.toList b.toList := by
  rw [editDistance_eq_cost, ← Edits.reverse_iff]
  exact edits_cost _ _

theorem editDistance_le (hab : Edits n a.toList b.toList) : editDistance a b ≤ n := by
  rw [editDistance_eq_cost]
  exact hab.reverse.aligned.cost_le

/-- The distance is the least number of edits that turn one word into the other. So it is a metric:
only the word itself is at distance zero, edits can be taken back, and they can be put together. -/
theorem editDistance_isLeast (a b : String) :
    IsLeast {n | Edits n a.toList b.toList} (editDistance a b) ∧
      (editDistance a b = 0 ↔ a = b) ∧ editDistance a b = editDistance b a ∧
      ∀ c, editDistance a c ≤ editDistance a b + editDistance b c := by
  refine ⟨⟨edits_editDistance a b, fun n hn => editDistance_le hn⟩, ⟨fun hzero => ?_, ?_⟩, ?_,
    fun c => ?_⟩
  · have hedits := edits_editDistance a b
    rw [hzero, Edits.zero_iff] at hedits
    exact String.toList_inj.mp hedits
  · rintro rfl
    exact Nat.le_zero.mp (editDistance_le (.none a.toList))
  · have hle : ∀ a b : String, editDistance a b ≤ editDistance b a :=
      fun a b => editDistance_le (edits_editDistance b a).symm
    exact Nat.le_antisymm (hle a b) (hle b a)
  · exact editDistance_le ((edits_editDistance a b).trans (edits_editDistance b c))

example : editDistance "flaw" "lawn" = 2 := by decide +kernel

end DictScript
