/-
  TraceFold.Proofs.Lists

  Lists in which everything comes once: what is left when repetitions are erased, and
  what a list of parts contributes where only one part has something to give.  Also, lists
  whose elements correspond, of two things, which one comes first, what groups add up to,
  and of two tests, which one counts less.
-/

import Mathlib.Algebra.BigOperators.Group.List.Basic
import Mathlib.Algebra.GroupWithZero.Nat
import Mathlib.Data.List.Forall2
import Mathlib.Data.List.Induction
import Mathlib.Data.List.Nodup

namespace TraceFold

variable {α β κ ε : Type}

theorem nodup_eraseDups [BEq α] [LawfulBEq α] : ∀ l : List α, l.eraseDups.Nodup
  | [] => by simp
  | a :: l => by
      rw [List.eraseDups_cons, List.nodup_cons, List.mem_eraseDups]
      exact ⟨by simp, nodup_eraseDups _⟩
termination_by l => l.length
decreasing_by exact Nat.lt_succ_of_le (List.length_filter_le _ _)

theorem eraseDups_sublist [BEq α] : ∀ l : List α, l.eraseDups.Sublist l
  | [] => by simp
  | a :: l => by
      rw [List.eraseDups_cons]
      exact ((eraseDups_sublist _).trans List.filter_sublist).cons_cons a
termination_by l => l.length
decreasing_by exact Nat.lt_succ_of_le (List.length_filter_le _ _)

theorem eraseDups_concat [BEq α] [LawfulBEq α] {l : List α} {a : α} :
    (l ++ [a]).eraseDups = if a ∈ l then l.eraseDups else l.eraseDups ++ [a] := by
  rw [List.eraseDups_append]
  by_cases ha : a ∈ l <;> simp [List.removeAll, List.eraseDups_cons, ha]

/-- What comes first in a list does so among its images, with repetitions or without. -/
theorem eraseDups_map_eraseDups [BEq α] [LawfulBEq α] [BEq β] [LawfulBEq β] {h : α → β}
    {l : List α} : (l.eraseDups.map h).eraseDups = (l.map h).eraseDups := by
  induction l using List.reverseRecOn with
  | nil => rfl
  | append_singleton l a ih =>
      rw [List.map_append, List.map_singleton, eraseDups_concat, eraseDups_concat, ← ih]
      by_cases ha : a ∈ l
      · rw [if_pos ha, if_pos (List.mem_map_of_mem ha)]
      · have hmem : h a ∈ l.eraseDups.map h ↔ h a ∈ l.map h := by simp
        rw [if_neg ha, List.map_append, List.map_singleton, eraseDups_concat]
        simp only [hmem]

/-- Noting elements one by one, each where it is new, notes the first occurrences. -/
theorem reverse_union_nil [BEq α] [LawfulBEq α] {l : List α} :
    (l.reverse ∪ []).reverse = l.eraseDups := by
  induction l using List.reverseRecOn with
  | nil => rfl
  | append_singleton l a ih =>
      have hmem : a ∈ l.reverse ∪ [] ↔ a ∈ l := by simp
      rw [List.reverse_concat, List.cons_union, eraseDups_concat, ← ih]
      by_cases ha : a ∈ l
      · rw [List.insert_of_mem (hmem.2 ha), if_pos ha]
      · rw [List.insert_of_not_mem fun h => ha (hmem.1 h), List.reverse_cons, if_neg ha]

theorem append_union [BEq α] {l l' found : List α} :
    (l ++ l') ∪ found = l ∪ (l' ∪ found) := by
  induction l with
  | nil => rfl
  | cons a l ih => rw [List.cons_append, List.cons_union, List.cons_union, ih]

theorem cons_reverse_union [BEq α] {a : α} {l found : List α} :
    (a :: l).reverse ∪ found = l.reverse ∪ found.insert a := by
  rw [List.reverse_cons, append_union]
  rfl

theorem nodup_append_singleton {l : List α} {a : α} (hl : l.Nodup) (ha : a ∉ l) :
    (l ++ [a]).Nodup := by
  rw [← List.concat_eq_append]
  exact hl.concat ha

/-- Going through a list succeeds if every single step does. -/
theorem mapM_eq_ok {f : α → Except ε β} {g : α → β} {l : List α}
    (h : ∀ x ∈ l, f x = .ok (g x)) : l.mapM f = .ok (l.map g) := by
  induction l with
  | nil => rfl
  | cons x l ih =>
      have hhead := h x List.mem_cons_self
      have htail := ih fun y hy => h y (List.mem_cons_of_mem x hy)
      rw [List.mapM_cons, hhead, htail]
      rfl

theorem mapM_eq_some_iff {f : α → Option β} {l : List α} {l' : List β} :
    l.mapM f = some l' ↔ List.Forall₂ (fun a b => f a = some b) l l' := by
  induction l generalizing l' with
  | nil => simp [eq_comm]
  | cons a l ih =>
      rw [List.mapM_cons, List.forall₂_cons_left_iff]
      simp [← ih, Option.bind_eq_some_iff, eq_comm (b := l')]

/-- Where elements correspond, those at one place do, or both lists end before it. -/
theorem getElem?_cases_of_forall₂ {r : α → β → Prop} {l : List α} {l' : List β}
    (h : List.Forall₂ r l l') (i : Nat) : (l[i]? = none ∧ l'[i]? = none) ∨
      ∃ a b, l[i]? = some a ∧ l'[i]? = some b ∧ r a b := by
  induction h generalizing i with
  | nil => exact Or.inl ⟨rfl, rfl⟩
  | @cons a b _ _ hab _ ih =>
      cases i with
      | zero => exact Or.inr ⟨a, b, rfl, rfl, hab⟩
      | succ i => exact ih i

/-- Where elements that correspond pass or fail together, the first to pass are at the same
    place. -/
theorem findIdx?_eq_of_forall₂ {p : α → Bool} {q : β → Bool} {l : List α} {l' : List β}
    (h : List.Forall₂ (fun a b => q b = p a) l l') : l'.findIdx? q = l.findIdx? p := by
  induction h with
  | nil => rfl
  | cons hab _ ih => rw [List.findIdx?_cons, List.findIdx?_cons, hab, ih]

/-- Of parts with different keys, only the one that gives anything matters. -/
theorem flatMap_eq_of_unique (key : α → κ) {f : α → List β} {l : List α} {x : α}
    (hkeys : l.Pairwise fun a b => key a ≠ key b) (hx : x ∈ l)
    (hnil : ∀ y ∈ l, key y ≠ key x → f y = []) : l.flatMap f = f x := by
  induction l with
  | nil => exact absurd hx List.not_mem_nil
  | cons y l ih =>
      obtain ⟨hy, hl⟩ := List.pairwise_cons.1 hkeys
      rw [List.flatMap_cons]
      rcases List.mem_cons.1 hx with rfl | hx
      · have hrest : l.flatMap f = [] := by
          refine List.flatMap_eq_nil_iff.2 fun z hz => ?_
          exact hnil z (List.mem_cons_of_mem x hz) (hy z hz).symm
        rw [hrest, List.append_nil]
      · rw [hnil y List.mem_cons_self (hy x hx), List.nil_append]
        exact ih hl hx fun z hz => hnil z (List.mem_cons_of_mem y hz)

/-- What a list of keys is turned into can be told by the labels of the keys, if every key
    gives something that has its label. -/
theorem map_filterMap_eq_map {f : κ → Option β} {key : β → ε} {label : κ → ε} {l : List κ}
    (h : ∀ k ∈ l, ∃ b, f k = some b ∧ key b = label k) :
    (l.filterMap f).map key = l.map label := by
  induction l with
  | nil => rfl
  | cons k l ih =>
      obtain ⟨b, hb, hkey⟩ := h k List.mem_cons_self
      rw [List.filterMap_cons_some hb, List.map_cons, List.map_cons, hkey,
        ih fun k' hk' => h k' (List.mem_cons_of_mem k hk')]

/-- What a list of keys is turned into has those keys, if every key gives something that
    has it. -/
theorem map_filterMap_eq {f : κ → Option β} {key : β → κ} {l : List κ}
    (h : ∀ k ∈ l, ∃ b, f k = some b ∧ key b = k) : (l.filterMap f).map key = l :=
  (map_filterMap_eq_map h).trans (List.map_id l)

/-- A search for what there is once finds it. -/
theorem find?_eq_some_iff_of_unique {p : α → Bool} {l : List α} {x : α}
    (h : ∀ y ∈ l, ∀ z ∈ l, p y → p z → y = z) : l.find? p = some x ↔ x ∈ l ∧ p x := by
  refine ⟨fun hx => ⟨List.mem_of_find?_eq_some hx, List.find?_some hx⟩, fun ⟨hx, hpx⟩ => ?_⟩
  obtain ⟨y, hy⟩ := Option.isSome_iff_exists.1 (List.find?_isSome.2 ⟨x, hx, hpx⟩)
  rw [hy, h y (List.mem_of_find?_eq_some hy) x hx (List.find?_some hy) hpx]

/-- The first elements with each of the keys come in the list as the keys come up. -/
theorem filterMap_find?_sublist [BEq κ] [LawfulBEq κ] (key : α → κ) : ∀ l : List α,
    ((l.map key).eraseDups.filterMap fun k => l.find? fun x => key x == k).Sublist l
  | [] => by simp
  | z :: l => by
      have hmap : (l.map key).filter (fun k => !k == key z)
          = (l.filter fun x => !key x == key z).map key := List.filter_map
      -- other keys are looked for behind the first element, and among the others of its key in vain
      have hfind : ∀ k ∈ ((l.filter fun x => !key x == key z).map key).eraseDups,
          (z :: l).find? (fun x => key x == k)
            = (l.filter fun x => !key x == key z).find? fun x => key x == k := by
        intro k hk
        obtain ⟨x, hx, rfl⟩ := List.mem_map.1 (List.mem_eraseDups.1 hk)
        have hne : key x ≠ key z := by simpa using (List.mem_filter.1 hx).2
        rw [List.find?_cons_of_neg (by simpa using hne.symm), List.find?_filter]
        refine congrArg (l.find? ·) (funext fun y => ?_)
        by_cases hy : key y = key x <;> simp [hy, hne]
      have hhead : (z :: l).find? (fun x => key x == key z) = some z := by simp
      rw [List.map_cons, List.eraseDups_cons, hmap, List.filterMap_cons, List.filterMap_congr hfind]
      simp only [hhead]
      exact ((filterMap_find?_sublist key _).trans List.filter_sublist).cons_cons z
termination_by l => l.length
decreasing_by exact Nat.lt_succ_of_le (List.length_filter_le _ _)

/-! ## Which of two comes first -/

section Order

variable [DecidableEq α] [DecidableEq β]

/-- Backwards, a list that names nothing twice has everything as far from its end as it was
    from the beginning. -/
theorem idxOf_reverse {l : List α} {a : α} (hl : l.Nodup) (ha : a ∈ l) :
    l.reverse.idxOf a = l.length - 1 - l.idxOf a := by
  have hlt : l.idxOf a < l.length := List.idxOf_lt_length_of_mem ha
  have hplace : l.length - 1 - l.idxOf a < l.reverse.length := by
    rw [List.length_reverse]
    omega
  have helem : l.reverse[l.length - 1 - l.idxOf a] = a := by
    rw [List.getElem_reverse]
    have hback : l.length - 1 - (l.length - 1 - l.idxOf a) = l.idxOf a := by omega
    simp only [hback, List.getElem_idxOf]
  have hfound := (List.nodup_reverse.2 hl).idxOf_getElem _ hplace
  rwa [helem] at hfound

/-- Leaving out others does not change which of two comes first. -/
theorem idxOf_filter_lt {p : α → Bool} {l : List α} {a b : α} (ha : p a)
    (h : l.idxOf a < l.idxOf b) : (l.filter p).idxOf a < (l.filter p).idxOf b := by
  induction l with
  | nil => simp at h
  | cons x l ih =>
      have hb : x ≠ b := by
        rintro rfl
        simp at h
      rw [List.idxOf_cons_ne _ hb] at h
      by_cases hxa : x = a
      · subst hxa
        rw [List.filter_cons_of_pos ha, List.idxOf_cons_self, List.idxOf_cons_ne _ hb]
        exact Nat.succ_pos _
      · rw [List.idxOf_cons_ne _ hxa] at h
        have hrest := ih (Nat.lt_of_succ_lt_succ h)
        by_cases hx : p x
        · rw [List.filter_cons_of_pos hx, List.idxOf_cons_ne _ hxa, List.idxOf_cons_ne _ hb]
          exact Nat.succ_lt_succ hrest
        · rwa [List.filter_cons_of_neg hx]

/-- Neither does erasing repetitions. -/
theorem idxOf_eraseDups_lt : ∀ {l : List α} {a b : α}, l.idxOf a < l.idxOf b →
    l.eraseDups.idxOf a < l.eraseDups.idxOf b
  | [], a, b, h => by simp at h
  | x :: l, a, b, h => by
      have hb : x ≠ b := by
        rintro rfl
        simp at h
      rw [List.eraseDups_cons, List.idxOf_cons_ne _ hb]
      rw [List.idxOf_cons_ne _ hb] at h
      by_cases ha : x = a
      · rw [ha, List.idxOf_cons_self]
        exact Nat.succ_pos _
      · rw [List.idxOf_cons_ne _ ha] at h ⊢
        have hrest := idxOf_filter_lt (p := fun y => !y == x) (by simp [Ne.symm ha])
          (Nat.lt_of_succ_lt_succ h)
        exact Nat.succ_lt_succ (idxOf_eraseDups_lt hrest)
termination_by l => l.length
decreasing_by exact Nat.lt_succ_of_le (List.length_filter_le _ _)

/-- What comes first once repetitions are erased came first before. -/
theorem idxOf_lt_of_eraseDups {l : List α} {a b : α}
    (h : l.eraseDups.idxOf a < l.eraseDups.idxOf b) : l.idxOf a < l.idxOf b := by
  have ha : a ∈ l := by
    rw [← List.mem_eraseDups, ← List.idxOf_lt_length_iff]
    exact Nat.lt_of_lt_of_le h List.idxOf_le_length
  rcases Nat.lt_trichotomy (l.idxOf a) (l.idxOf b) with hlt | heq | hgt
  · exact hlt
  · obtain rfl := (List.idxOf_inj ha).1 heq
    exact absurd h (Nat.lt_irrefl _)
  · exact absurd h (Nat.lt_asymm (idxOf_eraseDups_lt hgt))

/-- Of two images, the one that comes first is that of something that comes before all that
    has the other one. -/
theorem exists_idxOf_lt_of_map {h : α → β} {l : List α} {a b : β}
    (hlt : (l.map h).idxOf a < (l.map h).idxOf b) :
    ∃ x ∈ l, h x = a ∧ ∀ y, h y = b → l.idxOf x < l.idxOf y := by
  induction l with
  | nil => simp at hlt
  | cons z l ih =>
      rw [List.map_cons] at hlt
      have hb : h z ≠ b := by
        rintro rfl
        simp at hlt
      have hne : ∀ y, h y = b → z ≠ y := fun y hy heq => hb (heq ▸ hy)
      by_cases ha : h z = a
      · refine ⟨z, List.mem_cons_self, ha, fun y hy => ?_⟩
        rw [List.idxOf_cons_self, List.idxOf_cons_ne _ (hne y hy)]
        exact Nat.succ_pos _
      · rw [List.idxOf_cons_ne _ ha, List.idxOf_cons_ne _ hb] at hlt
        obtain ⟨x, hx, hxa, hbefore⟩ := ih (Nat.lt_of_succ_lt_succ hlt)
        refine ⟨x, List.mem_cons_of_mem z hx, hxa, fun y hy => ?_⟩
        have hzx : z ≠ x := fun heq => ha (heq ▸ hxa)
        rw [List.idxOf_cons_ne _ hzx, List.idxOf_cons_ne _ (hne y hy)]
        exact Nat.succ_lt_succ (hbefore y hy)

/-- If whatever gives one thing comes behind something that gives another, or gives both of
    them in turn, the other one comes first in all that is given. -/
theorem idxOf_flatMap_lt {f : α → List β} {l : List α} {n m : β} (hn : n ∈ l.flatMap f)
    (h : ∀ y ∈ l, m ∈ f y → ∃ x, n ∈ f x ∧
      (l.idxOf x < l.idxOf y ∨ x = y ∧ (f y).idxOf n < (f y).idxOf m)) :
    (l.flatMap f).idxOf n < (l.flatMap f).idxOf m := by
  induction l with
  | nil => exact absurd hn List.not_mem_nil
  | cons z l ih =>
      rw [List.flatMap_cons] at hn ⊢
      by_cases hm : m ∈ f z
      · -- nothing comes before the first, so it gives both
        obtain ⟨x, hx, hlt | ⟨rfl, hlt⟩⟩ := h z List.mem_cons_self hm
        · simp at hlt
        · rwa [List.idxOf_append_of_mem hx, List.idxOf_append_of_mem hm]
      rw [List.idxOf_append_of_notMem hm]
      by_cases hz : n ∈ f z
      · rw [List.idxOf_append_of_mem hz]
        exact Nat.lt_add_right _ (List.idxOf_lt_length_of_mem hz)
      · -- neither is given by the first, so both are looked for behind it
        rw [List.idxOf_append_of_notMem hz]
        have hrest := (List.mem_append.1 hn).resolve_left hz
        refine Nat.add_lt_add_left (ih hrest fun y hy hmy => ?_) _
        obtain ⟨x, hx, hplace⟩ := h y (List.mem_cons_of_mem z hy) hmy
        have hzx : z ≠ x := fun heq => hz (heq ▸ hx)
        have hzy : z ≠ y := fun heq => hm (heq ▸ hmy)
        rw [List.idxOf_cons_ne _ hzx, List.idxOf_cons_ne _ hzy] at hplace
        exact ⟨x, hx, hplace.imp_left Nat.lt_of_succ_lt_succ⟩

/-- What is found earlier stands earlier. -/
theorem pairwise_of_idxOf {R : α → α → Prop} {l : List α} (hl : l.Nodup)
    (h : ∀ a ∈ l, ∀ b ∈ l, l.idxOf a < l.idxOf b → R a b) : l.Pairwise R := by
  refine List.pairwise_iff_getElem.2 fun i j hi hj hij => ?_
  refine h _ (List.getElem_mem hi) _ (List.getElem_mem hj) ?_
  rwa [hl.idxOf_getElem, hl.idxOf_getElem]

end Order

/-! ## Sums -/

/-- The sums of the groups with one key each add up to the sum of all. -/
theorem sum_groups [BEq κ] [LawfulBEq κ] {key : α → κ} {w : α → Nat} {keys : List κ} {l : List α}
    (hkeys : keys.Nodup) (hl : ∀ x ∈ l, key x ∈ keys) :
    (keys.map fun k => ((l.filter fun x => key x == k).map w).sum).sum = (l.map w).sum := by
  classical
  induction l with
  | nil => simp
  | cons x l ih =>
      have hstep : ∀ k, (((x :: l).filter fun x => key x == k).map w).sum
          = (if key x = k then w x else 0) + ((l.filter fun x => key x == k).map w).sum := by
        intro k
        by_cases hk : key x = k <;> simp [hk]
      -- the first element counts for its own key, which comes once
      have hone : (keys.map fun k => if key x = k then w x else 0).sum = w x := by
        have hcount := @List.count_eq_one_of_mem κ instBEqOfDecidableEq _ _ _ hkeys
          (hl x List.mem_cons_self)
        rw [List.sum_map_eq_nsmul_single (key x) _ fun k hk _ => if_neg (Ne.symm hk), hcount,
          if_pos rfl, one_nsmul]
      have hrest := ih fun y hy => hl y (List.mem_cons_of_mem x hy)
      simp only [hstep, List.sum_map_add, hone, hrest, List.map_cons, List.sum_cons]

/-! ## Counting -/

/-- A test that fewer elements pass counts fewer. -/
theorem countP_lt_countP {p q : α → Bool} {l : List α} {x : α} (h : ∀ y ∈ l, p y → q y)
    (hx : x ∈ l) (hq : q x) (hp : p x = false) : l.countP p < l.countP q := by
  induction l with
  | nil => exact absurd hx List.not_mem_nil
  | cons y l ih =>
      have htail : ∀ z ∈ l, p z → q z := fun z hz => h z (List.mem_cons_of_mem y hz)
      rw [List.countP_cons, List.countP_cons]
      rcases List.mem_cons.1 hx with rfl | hx
      · have hle := List.countP_mono_left htail
        simp only [hp, hq, ite_true]
        simp only [Bool.false_eq_true, ite_false]
        omega
      · have hlt := ih htail hx
        have hhead := h y List.mem_cons_self
        by_cases hpy : p y
        · rw [if_pos hpy, if_pos (hhead hpy)]
          omega
        · rw [if_neg hpy]
          omega

end TraceFold
