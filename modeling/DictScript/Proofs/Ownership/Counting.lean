import DictScript.Proofs.Ownership.Living

/-!
Counting owners finds what lives: an object without an owner is released, and so is what then has
none left, until every object that remains is held or belongs to one that remains.
-/
namespace DictScript.Heap
variable {h : Heap} {r : Ref} {i j : Nat} {R work : List Nat} {counts : Array Nat}

/-! Owners that are left. -/

def ownedNumbers (h : Heap) (i : Nat) : List Nat := (h.owned (h.ofNumber i)).map h.number

def ownersLeft (h : Heap) (R : List Nat) : List Nat :=
  h.held.map h.number ++ ((List.range h.size).filter (· ∉ R)).flatMap h.ownedNumbers

theorem count_flatMap_remove {xs : List Nat} {f : Nat → List Nat} (hxs : xs.Nodup) (hi : i ∈ xs)
    (hR : i ∉ R) : ((xs.filter (· ∉ R)).flatMap f).count j =
      ((xs.filter (· ∉ i :: R)).flatMap f).count j + (f i).count j := by
  induction xs with
  | nil => simp at hi
  | cons x xs ih =>
    have hx := List.nodup_cons.mp hxs
    by_cases hxi : x = i
    · subst hxi
      have hsame : xs.filter (· ∉ x :: R) = xs.filter (· ∉ R) := by
        refine List.filter_congr fun y hy => ?_
        have hne : y ≠ x := fun heq => hx.1 (heq ▸ hy)
        simp [hne]
      rw [List.filter_cons_of_pos (by simpa using hR), List.filter_cons_of_neg (by simp), hsame,
        List.flatMap_cons, List.count_append, Nat.add_comm]
    · have hi' : i ∈ xs := (List.mem_cons.mp hi).resolve_left (Ne.symm hxi)
      by_cases hxR : x ∈ R
      · rw [List.filter_cons_of_neg (by simpa using hxR), List.filter_cons_of_neg (by simp [hxR])]
        exact ih hx.2 hi'
      · rw [List.filter_cons_of_pos (by simpa using hxR),
          List.filter_cons_of_pos (by simp [hxR, hxi]), List.flatMap_cons, List.flatMap_cons,
          List.count_append, List.count_append, ih hx.2 hi', Nat.add_assoc]

theorem count_ownersLeft_cons (hi : i < h.size) (hR : i ∉ R) :
    (h.ownersLeft R).count j = (h.ownersLeft (i :: R)).count j + (h.ownedNumbers i).count j := by
  rw [ownersLeft, ownersLeft, List.count_append, List.count_append,
    count_flatMap_remove List.nodup_range (List.mem_range.mpr hi) hR, Nat.add_assoc]

structure Counted (h : Heap) (R work : List Nat) (counts : Array Nat) : Prop where
  size : counts.size = h.size
  counts : ∀ i < h.size, counts.getD i 0 = (h.ownersLeft R).count i
  zero : ∀ i < h.size, (h.ownersLeft R).count i = 0 ↔ i ∈ R ∨ i ∈ work
  nodup : (R ++ work).Nodup
  bound : ∀ i ∈ R ++ work, i < h.size
  dead : ∀ i ∈ R ++ work, ¬ h.Living h.heldRefs (h.ofNumber i)

theorem not_living_of_count
    (hR : ∀ i ∈ R, ¬ h.Living h.heldRefs (h.ofNumber i)) (hzero : (h.ownersLeft R).count j = 0) :
    ¬ h.Living h.heldRefs (h.ofNumber j) := by
  intro hliving
  rw [List.count_eq_zero, ownersLeft, List.mem_append, not_or] at hzero
  cases living_iff.mp hliving with
  | inl hheld =>
    exact hzero.1 (List.mem_map.mpr ⟨_, hheld, number_ofNumber⟩)
  | inr howner =>
    obtain ⟨o, ho, hjo⟩ := howner
    have hmade : h.Allocated o := by
      by_contra hnot
      simp [owned_of_not_allocated hnot] at hjo
    refine hzero.2 (List.mem_flatMap.mpr ⟨h.number o, ?_, ?_⟩)
    · rw [List.mem_filter, List.mem_range]
      refine ⟨number_lt hmade, ?_⟩
      have hnot : h.number o ∉ R := fun hmem => hR _ hmem ((ofNumber_number hmade).symm ▸ ho)
      simpa using hnot
    · rw [ownedNumbers, ofNumber_number hmade]
      exact List.mem_map.mpr ⟨_, hjo, number_ofNumber⟩

/-! Counting. -/

theorem foldl_countOwner (rs : List Ref) (counts : Array Nat) (hsize : counts.size = h.size) :
    (rs.foldl h.countOwner counts).size = h.size ∧ ∀ i < h.size,
      (rs.foldl h.countOwner counts).getD i 0 = counts.getD i 0 + (rs.map h.number).count i := by
  induction rs generalizing counts with
  | nil => exact ⟨hsize, fun i _ => by simp⟩
  | cons r rs ih =>
    have hsize' : (h.countOwner counts r).size = h.size := by simp [countOwner, hsize]
    obtain ⟨hs, hc⟩ := ih _ hsize'
    refine ⟨hs, fun i hi => ?_⟩
    rw [List.foldl_cons, hc i hi, List.map_cons, List.count_cons]
    have hone : (h.countOwner counts r).getD i 0 =
        counts.getD i 0 + if h.number r = i then 1 else 0 := by
      simp only [countOwner, Array.getD_eq_getD_getElem?, Array.getElem?_modify]
      by_cases hri : h.number r = i
      · subst hri
        simp [hsize, hi]
      · simp [hri]
    rw [hone]
    simp only [beq_iff_eq]
    omega

def countOwned (h : Heap) (is : List Nat) (counts : Array Nat) : Array Nat :=
  is.foldl (fun counts i => (h.owned (h.ofNumber i)).foldl h.countOwner counts) counts

theorem countOwned_spec (is : List Nat) (counts : Array Nat) (hsize : counts.size = h.size) :
    (h.countOwned is counts).size = h.size ∧ ∀ i < h.size, (h.countOwned is counts).getD i 0 =
      counts.getD i 0 + (is.flatMap h.ownedNumbers).count i := by
  induction is generalizing counts with
  | nil => exact ⟨hsize, fun i _ => by simp [countOwned]⟩
  | cons j is ih =>
    obtain ⟨hs, hc⟩ := foldl_countOwner (h.owned (h.ofNumber j)) counts hsize
    obtain ⟨hs', hc'⟩ := ih _ hs
    refine ⟨hs', fun i hi => ?_⟩
    rw [countOwned, List.foldl_cons, ← countOwned, hc' i hi, hc i hi, List.flatMap_cons,
      List.count_append, ownedNumbers, Nat.add_assoc]

theorem counted_start : h.Counted [] ((List.range h.size).filter fun i =>
    h.ownerCounts.getD i 0 = 0) h.ownerCounts := by
  have hreplicate : (Array.replicate h.size 0).size = h.size := by simp
  obtain ⟨hs, hc⟩ := foldl_countOwner h.held (Array.replicate h.size 0) hreplicate
  obtain ⟨hs', hc'⟩ := countOwned_spec (List.range h.size) _ hs
  have hcounts : ∀ i < h.size, h.ownerCounts.getD i 0 = (h.ownersLeft []).count i := by
    intro i hi
    rw [ownerCounts, ← countOwned, hc' i hi, hc i hi, ownersLeft, List.count_append]
    simp [Array.getD_eq_getD_getElem?, hi]
  have hzero : ∀ i < h.size, (h.ownersLeft []).count i = 0 ↔ i ∈ [] ∨
      i ∈ (List.range h.size).filter fun i => h.ownerCounts.getD i 0 = 0 := by
    intro i hi
    rw [List.mem_filter, List.mem_range, hcounts i hi]
    simp [hi]
  refine ⟨hs', hcounts, hzero, ?_, ?_, ?_⟩
  · exact List.nodup_range.filter _
  · intro i hi
    exact List.mem_range.mp (List.mem_filter.mp hi).1
  · intro i hi
    have hlt := List.mem_range.mp (List.mem_filter.mp hi).1
    exact not_living_of_count (by simp) ((hzero i hlt).mpr (.inr hi))

/-! Releasing. -/

theorem foldl_loseOwner (rs : List Ref) (work : List Nat) (counts : Array Nat) (base : Nat → Nat)
    (hrs : ∀ r ∈ rs, h.number r < counts.size)
    (hcounts : ∀ j < counts.size, counts.getD j 0 = base j + (rs.map h.number).count j) :
    ∃ new counts', rs.foldl h.loseOwner (work, counts) = (new ++ work, counts') ∧
      counts'.size = counts.size ∧ (∀ j < counts.size, counts'.getD j 0 = base j) ∧ new.Nodup ∧
      ∀ j, j ∈ new ↔ j ∈ rs.map h.number ∧ base j = 0 := by
  induction rs generalizing work counts with
  | nil => exact ⟨[], counts, rfl, rfl, by simpa using hcounts, List.nodup_nil, by simp⟩
  | cons r rs ih =>
    have hr : h.number r < counts.size := hrs r List.mem_cons_self
    have hleft : counts.getD (h.number r) 0 - 1 =
        base (h.number r) + (rs.map h.number).count (h.number r) := by
      rw [hcounts _ hr, List.map_cons, List.count_cons_self]
      omega
    have hrest : ∀ j < (counts.set! (h.number r) (counts.getD (h.number r) 0 - 1)).size,
        (counts.set! (h.number r) (counts.getD (h.number r) 0 - 1)).getD j 0 =
          base j + (rs.map h.number).count j := by
      intro j hj
      have hj : j < counts.size := by simpa using hj
      by_cases hjr : j = h.number r
      · subst hjr
        simpa [Array.getD_eq_getD_getElem?, hr] using hleft
      · have hold := hcounts j hj
        rw [List.map_cons, List.count_cons_of_ne (Ne.symm hjr)] at hold
        have hne : ¬ h.number r = j := Ne.symm hjr
        rw [← hold]
        simp [Array.getD_eq_getD_getElem?, hne]
    obtain ⟨new, counts', hrun, hsize, hbase, hnodup, hnew⟩ :=
      ih (if counts.getD (h.number r) 0 - 1 = 0 then h.number r :: work else work) _
        (fun q hq => by simpa using hrs q (List.mem_cons_of_mem _ hq)) hrest
    rw [List.foldl_cons, loseOwner, hrun]
    have hsize' : counts'.size = counts.size := by simpa using hsize
    have hbase' : ∀ j < counts.size, counts'.getD j 0 = base j := by simpa using hbase
    by_cases hzero : counts.getD (h.number r) 0 - 1 = 0
    · rw [hleft] at hzero
      have hnot : h.number r ∉ new := by
        rw [hnew]
        exact fun hmem => List.count_eq_zero.mp (by omega) hmem.1
      refine ⟨new ++ [h.number r], counts', ?_, hsize', hbase', ?_, fun j => ?_⟩
      · rw [if_pos (hleft.trans hzero), List.append_assoc]
        rfl
      · rw [List.nodup_append]
        refine ⟨hnodup, List.nodup_singleton _, ?_⟩
        intro a ha b hb heq
        rw [List.mem_singleton.mp hb] at heq
        exact hnot (heq ▸ ha)
      · rw [List.mem_append, List.mem_singleton, hnew, List.map_cons, List.mem_cons]
        constructor
        · rintro (⟨hj, hb⟩ | rfl)
          · exact ⟨.inr hj, hb⟩
          · exact ⟨.inl rfl, by omega⟩
        · rintro ⟨rfl | hj, hb⟩
          · exact .inr rfl
          · exact .inl ⟨hj, hb⟩
    · refine ⟨new, counts', by rw [if_neg hzero], hsize', hbase', hnodup, fun j => ?_⟩
      rw [hnew, List.map_cons, List.mem_cons]
      constructor
      · exact fun ⟨hj, hb⟩ => ⟨.inr hj, hb⟩
      · rintro ⟨rfl | hj, hb⟩
        · refine ⟨List.count_pos_iff.mp ?_, hb⟩
          omega
        · exact ⟨hj, hb⟩

theorem Counted.release_one (hc : h.Counted R (i :: work) counts)
    (hclosed : ∀ r, h.Allocated r → ∀ s ∈ h.owned r, h.Allocated s) :
    ∃ work' counts', (h.owned (h.ofNumber i)).foldl h.loseOwner (work, counts) = (work', counts') ∧
      h.Counted (i :: R) work' counts' := by
  have hi : i < h.size := hc.bound i (by simp)
  have hnodup := List.nodup_append.mp hc.nodup
  have hiR : i ∉ R := fun hmem => hnodup.2.2 i hmem i List.mem_cons_self rfl
  have hmade := allocated_ofNumber hi
  obtain ⟨new, counts', hrun, hsize, hbase, hnew, hmem'⟩ :=
    foldl_loseOwner (h.owned (h.ofNumber i)) work counts (fun j => (h.ownersLeft (i :: R)).count j)
      (fun r hr => hc.size ▸ number_lt (hclosed _ hmade r hr)) fun j hj => by
        rw [hc.counts j (hc.size ▸ hj), count_ownersLeft_cons hi hiR, ownedNumbers]
  have hzero : ∀ j < h.size, (h.ownersLeft (i :: R)).count j = 0 ↔
      j ∈ i :: R ∨ j ∈ new ++ work := by
    intro j hj
    have hold := hc.zero j hj
    rw [count_ownersLeft_cons hi hiR] at hold
    rw [List.mem_append, hmem', List.mem_cons]
    rw [Nat.add_eq_zero_iff, List.count_eq_zero (a := j) (l := h.ownedNumbers i),
      List.mem_cons] at hold
    constructor
    · intro hj
      by_cases hji : j ∈ h.ownedNumbers i
      · exact .inr (.inl ⟨hji, hj⟩)
      · cases hold.mp ⟨hj, hji⟩ with
        | inl hR => exact .inl (.inr hR)
        | inr hwork => exact hwork.elim (fun heq => .inl (.inl heq)) fun hw => .inr (.inr hw)
    · rintro ((heq | hR) | ⟨-, hj⟩ | hw)
      · exact (hold.mpr (.inr (.inl heq))).1
      · exact (hold.mpr (.inl hR)).1
      · exact hj
      · exact (hold.mpr (.inr (.inr hw))).1
  have hfresh : ∀ j ∈ new, j ∉ i :: (R ++ work) := by
    intro j hj hmem
    obtain ⟨hji, -⟩ := (hmem' j).mp hj
    have hpos : 0 < (h.ownersLeft R).count j := by
      rw [count_ownersLeft_cons hi hiR]
      exact Nat.add_pos_right _ (List.count_pos_iff.mpr hji)
    have hlt : j < h.size := hc.bound j (by
      simp only [List.mem_cons, List.mem_append] at hmem ⊢
      tauto)
    refine Nat.ne_of_gt hpos ((hc.zero j hlt).mpr ?_)
    simp only [List.mem_cons, List.mem_append] at hmem ⊢
    tauto
  have hdead : ∀ j ∈ i :: R, ¬ h.Living h.heldRefs (h.ofNumber j) := fun j hj =>
    hc.dead j (by
      simp only [List.mem_cons, List.mem_append] at hj ⊢
      tauto)
  have hbound : ∀ j ∈ new, j < h.size := by
    intro j hj
    obtain ⟨r, hr, rfl⟩ := List.mem_map.mp ((hmem' j).mp hj).1
    exact number_lt (hclosed _ hmade r hr)
  have hperm : ((i :: R) ++ (new ++ work)).Perm (new ++ (i :: (R ++ work))) := by
    rw [← List.append_assoc]
    refine (List.perm_append_comm.append_right work).trans ?_
    rw [List.append_assoc, List.cons_append]
  refine ⟨new ++ work, counts', hrun, hsize.trans hc.size,
    fun j hj => hbase j (hc.size.symm ▸ hj), hzero, ?_, ?_, ?_⟩
  · rw [hperm.nodup_iff, List.nodup_append]
    refine ⟨hnew, List.perm_middle.nodup_iff.mp hc.nodup, ?_⟩
    rintro a ha b hb rfl
    exact hfresh a ha hb
  · intro j hj
    cases List.mem_append.mp (hperm.mem_iff.mp hj) with
    | inl hj => exact hbound j hj
    | inr hj => exact hc.bound j (List.perm_middle.mem_iff.mpr hj)
  · intro j hj
    cases List.mem_append.mp (hperm.mem_iff.mp hj) with
    | inl hj => exact not_living_of_count hdead ((hmem' j).mp hj).2
    | inr hj => exact hc.dead j (List.perm_middle.mem_iff.mpr hj)

/-- With fuel for the objects that are not released yet, nothing is left to release. -/
theorem Counted.release {n : Nat} (hc : h.Counted R work counts) (hn : h.size ≤ n + R.length)
    (hclosed : ∀ r, h.Allocated r → ∀ s ∈ h.owned r, h.Allocated s) :
    ∃ R', h.Counted R' [] (h.release n work counts) := by
  induction n generalizing R work counts with
  | zero =>
    have hlen : (R ++ work).length ≤ h.size := by
      have hsub : R ++ work ⊆ List.range h.size := fun i hi => List.mem_range.mpr (hc.bound i hi)
      simpa using (hc.nodup.subperm hsub).length_le
    have hwork : work = [] := by
      rw [List.length_append] at hlen
      exact List.length_eq_zero_iff.mp (by omega)
    rw [hwork] at hc ⊢
    exact ⟨R, hc⟩
  | succ n ih =>
    cases work with
    | nil => exact ⟨R, hc⟩
    | cons i work =>
      obtain ⟨work', counts', hrun, hc'⟩ := hc.release_one hclosed
      rw [Heap.release, hrun]
      exact ih hc' (by rw [List.length_cons]; omega)

/-- The objects with an owner left are those that live. -/
theorem livingOwners_ne_zero_iff (hclosed : ∀ r, h.Allocated r → ∀ s ∈ h.owned r, h.Allocated s)
    (hheld : ∀ s ∈ h.held, h.Allocated s) (hr : h.Allocated r) :
    h.livingOwners.getD (h.number r) 0 ≠ 0 ↔ h.Living h.heldRefs r := by
  obtain ⟨R, hc⟩ := (counted_start (h := h)).release (Nat.le_add_right _ _) hclosed
  have hlt := number_lt hr
  have hleft : ∀ i < h.size, h.livingOwners.getD i 0 = 0 ↔ i ∈ R := by
    intro i hi
    rw [livingOwners, hc.counts i hi, hc.zero i hi]
    simp
  constructor
  · intro hne
    refine ⟨{s | h.Allocated s ∧ h.number s ∉ R}, ⟨hr, ?_⟩, ?_⟩
    · rwa [ne_eq, hleft _ hlt] at hne
    · rintro s ⟨hs, hsR⟩
      have hcount : (h.ownersLeft R).count (h.number s) ≠ 0 := by
        rw [ne_eq, hc.zero _ (number_lt hs)]
        simpa using hsR
      rw [ne_eq, List.count_eq_zero, not_not, ownersLeft, List.mem_append] at hcount
      cases hcount with
      | inl hmem =>
        obtain ⟨q, hq, hqs⟩ := List.mem_map.mp hmem
        obtain rfl := number_inj (hheld q hq) hs hqs
        exact .inl hq
      | inr hmem =>
        obtain ⟨o, ho, hmem⟩ := List.mem_flatMap.mp hmem
        obtain ⟨q, hq, hqs⟩ := List.mem_map.mp hmem
        obtain ⟨ho, hoR⟩ := List.mem_filter.mp ho
        have hmade := allocated_ofNumber (List.mem_range.mp ho)
        obtain rfl := number_inj (hclosed _ hmade q hq) hs hqs
        refine .inr ⟨h.ofNumber o, ⟨hmade, ?_⟩, hq⟩
        rw [number_ofNumber]
        simpa using hoR
  · intro hliving hzero
    refine hc.dead (h.number r) ?_ ((ofNumber_number hr).symm ▸ hliving)
    rw [hleft _ hlt] at hzero
    simpa using hzero

/-- A dictionary counts as alive just if it lives. -/
theorem alive_iff (hclosed : ∀ r, h.Allocated r → ∀ s ∈ h.owned r, h.Allocated s)
    (hheld : ∀ r ∈ h.held, h.Allocated r) {d : DictId} (hd : h.Allocated (.dict d)) :
    h.alive d = true ↔ h.Living h.heldRefs (.dict d) := by
  have hcount := livingOwners_ne_zero_iff hclosed hheld hd
  rw [alive, Bool.or_eq_true, Bool.or_eq_true, decide_eq_true_eq]
  constructor
  · rintro ((hnear | hpinned) | howners)
    · exact living_of_isNear hnear
    · exact living_of_isPinned hpinned
    · exact hcount.mp howners
  · exact fun hliving => .inr (hcount.mpr hliving)

end DictScript.Heap
