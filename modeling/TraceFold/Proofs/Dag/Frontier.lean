/-
  TraceFold.Proofs.Dag.Frontier

  The loop that puts codecs in order, one step at a time.  `drain` holds the degrees of
  the codecs that are still to be taken and a queue of those that are free.  What ties
  the two to the codecs already taken is `Frontier`:

    * a codec's degree and the number of times that the taken codecs list it add up to
      the number of times that all codecs list it (`degree`);
    * the queue holds the codecs of degree zero that are not taken (`mem_queue`).

  `release` keeps both (`Frontier.step`), so a full run keeps them to its end
  (`Frontier.drain`), and the codecs leave the queue behind everything that feeds them
  (`Ready`).
-/

import Mathlib.Data.List.Nodup
import Mathlib.Data.List.Perm.Subperm
import TraceFold.Dag

namespace TraceFold.Dag

variable {children : Array (List CodecId)}

/-- All codecs of a table of children, in ascending order. -/
def codecsOf (children : Array (List CodecId)) : List CodecId :=
  (List.range children.size).map CodecId.mk

/-- How often codecs list a codec as a child. -/
def feeding (children : Array (List CodecId)) (us : List CodecId) (v : CodecId) : Nat :=
  (us.flatMap (childrenIn children)).count v

@[simp] theorem mem_codecsOf {c : CodecId} : c ∈ codecsOf children ↔ c.index < children.size := by
  simp only [codecsOf, List.mem_map, List.mem_range]
  constructor
  · rintro ⟨i, hi, rfl⟩
    exact hi
  · intro hc
    exact ⟨c.index, hc, rfl⟩

theorem nodup_codecsOf : (codecsOf children).Nodup :=
  List.Nodup.map (fun _ _ h => CodecId.mk.inj h) List.nodup_range

@[simp] theorem length_codecsOf : (codecsOf children).length = children.size := by
  simp [codecsOf]

/-- Only codecs of the table have children. -/
theorem index_lt_of_mem_childrenIn {u v : CodecId} (h : v ∈ childrenIn children u) :
    u.index < children.size := by
  by_contra hu
  simp [childrenIn, Array.getElem?_eq_none (Nat.le_of_not_lt hu)] at h

/-! ## Counting who feeds a codec -/

theorem feeding_append (children : Array (List CodecId)) (us ws : List CodecId) (v : CodecId) :
    feeding children (us ++ ws) v = feeding children us v + feeding children ws v := by
  simp [feeding]

@[simp] theorem feeding_singleton (u v : CodecId) :
    feeding children [u] v = (childrenIn children u).count v := by
  simp [feeding]

/-- Nothing feeds a codec exactly if none of the codecs lists it. -/
theorem feeding_eq_zero {us : List CodecId} {v : CodecId} :
    feeding children us v = 0 ↔ ∀ u ∈ us, v ∉ childrenIn children u := by
  simp [feeding, List.count_eq_zero]

/-- Codecs without repetition can be filled up to the codecs of the table. -/
theorem exists_rest {us : List CodecId} (hnodup : us.Nodup)
    (hlt : ∀ u ∈ us, u.index < children.size) :
    ∃ rest, (us ++ rest).Perm (codecsOf children) := by
  have hsub : us ⊆ codecsOf children := fun u hu => mem_codecsOf.2 (hlt u hu)
  obtain ⟨us', hperm, hsublist⟩ := List.subperm_of_subset hnodup hsub
  obtain ⟨rest, hrest⟩ := hsublist.exists_perm_append
  exact ⟨rest, (hrest.trans (hperm.append_right rest)).symm⟩

/-- Codecs without repetition list a codec at most as often as all of them do. -/
theorem feeding_le {us : List CodecId} (hnodup : us.Nodup)
    (hlt : ∀ u ∈ us, u.index < children.size) (v : CodecId) :
    feeding children us v ≤ feeding children (codecsOf children) v := by
  obtain ⟨rest, hrest⟩ := exists_rest hnodup hlt
  have hcount := (hrest.flatMap_right (childrenIn children)).count_eq v
  have hsplit := feeding_append children us rest v
  simp only [feeding] at hcount hsplit ⊢
  omega

/-- They list it as often as all of them exactly if they are all that feed it. -/
theorem feeding_eq_iff {us : List CodecId} (hnodup : us.Nodup)
    (hlt : ∀ u ∈ us, u.index < children.size) (v : CodecId) :
    feeding children us v = feeding children (codecsOf children) v ↔
      ∀ u, v ∈ childrenIn children u → u ∈ us := by
  obtain ⟨rest, hrest⟩ := exists_rest hnodup hlt
  have htotal : feeding children (codecsOf children) v
      = feeding children us v + feeding children rest v := by
    rw [← feeding_append]
    exact ((hrest.flatMap_right (childrenIn children)).count_eq v).symm
  have hzero : feeding children us v = feeding children (codecsOf children) v ↔
      feeding children rest v = 0 := by omega
  rw [hzero, feeding_eq_zero]
  constructor
  · intro h u hu
    have hmem : u ∈ us ++ rest :=
      hrest.mem_iff.2 (mem_codecsOf.2 (index_lt_of_mem_childrenIn hu))
    rcases List.mem_append.1 hmem with hin | hin
    · exact hin
    · exact absurd hu (h u hin)
  · intro h u hu hv
    have hdisjoint := List.disjoint_of_nodup_append (hrest.nodup_iff.2 nodup_codecsOf)
    exact hdisjoint (h u hv) hu

/-! ## Degrees -/

theorem getElem?_foldl_modify (cs : List CodecId) (degrees : Array Nat) (v : CodecId) :
    (cs.foldl (fun degrees c => degrees.modify c.index (· + 1)) degrees)[v.index]?
      = degrees[v.index]?.map (· + cs.count v) := by
  induction cs generalizing degrees with
  | nil => simp
  | cons c cs ih =>
      rw [List.foldl_cons, ih, Array.getElem?_modify]
      by_cases hc : c = v
      · subst hc
        simp only [if_true, Option.map_map, List.count_cons_self]
        congr 1
        funext d
        simp only [Function.comp_apply]
        omega
      · simp [hc]

/-- The degree of a codec is the number of times that codecs list it. -/
theorem getElem?_inDegrees {v : CodecId} (hv : v.index < children.size) :
    (inDegrees children)[v.index]? = some (feeding children (codecsOf children) v) := by
  have hflat : (codecsOf children).flatMap (childrenIn children) = children.toList.flatten := by
    rw [List.flatMap_def]
    congr 1
    apply List.ext_getElem
    · simp
    · intro i hi _
      simp only [List.length_map, length_codecsOf] at hi
      simp [codecsOf, childrenIn, hi]
  rw [inDegrees, getElem?_foldl_modify, feeding, hflat]
  simp [hv]

@[simp] theorem size_inDegrees : (inDegrees children).size = children.size := by
  unfold inDegrees
  suffices h : ∀ (cs : List CodecId) (degrees : Array Nat),
      (cs.foldl (fun degrees c => degrees.modify c.index (· + 1)) degrees).size
        = degrees.size by
    rw [h]
    simp
  intro cs
  induction cs with
  | nil => intro degrees; rfl
  | cons c cs ih => intro degrees; rw [List.foldl_cons, ih, Array.size_modify]

/-- The codecs that are picked out are those whose degree passes the test. -/
theorem mem_codecsWhere {degrees : Array Nat} {test : Nat → Bool} {v : CodecId} :
    v ∈ codecsWhere degrees test ↔ ∃ d, degrees[v.index]? = some d ∧ test d := by
  simp only [codecsWhere, List.mem_map, List.mem_filter, List.mem_range, Option.any_eq_true]
  constructor
  · rintro ⟨i, ⟨-, hd⟩, rfl⟩
    exact hd
  · rintro ⟨d, hd, ht⟩
    exact ⟨v.index, ⟨(Array.getElem?_eq_some_iff.1 hd).1, d, hd, ht⟩, rfl⟩

theorem nodup_codecsWhere (degrees : Array Nat) (test : Nat → Bool) :
    (codecsWhere degrees test).Nodup :=
  List.Nodup.map (fun _ _ h => CodecId.mk.inj h) (List.nodup_range.filter _)

/-! ## Releasing the children of a codec -/

@[simp] theorem size_release (degrees : Array Nat) (cs : List CodecId) :
    (release degrees cs).1.size = degrees.size := by
  induction cs generalizing degrees with
  | nil => rfl
  | cons c cs ih => simp [release, ih]

/-- Releasing children takes each of them off its degree as often as it is listed. -/
theorem getElem?_release (degrees : Array Nat) (cs : List CodecId) (v : CodecId) :
    (release degrees cs).1[v.index]? = degrees[v.index]?.map (· - cs.count v) := by
  induction cs generalizing degrees with
  | nil => simp [release]
  | cons c cs ih =>
      rw [release, ih, Array.getElem?_modify]
      by_cases hc : c = v
      · subst hc
        simp only [if_true, Option.map_map, List.count_cons_self]
        congr 1
        funext d
        simp only [Function.comp_apply]
        omega
      · simp [hc]

/-- Degrees that a list of children fits into. -/
def Covers (degrees : Array Nat) (cs : List CodecId) : Prop :=
  ∀ (v : CodecId) (d : Nat), degrees[v.index]? = some d → cs.count v ≤ d

/-- Once a child is taken off, the degrees still cover the children behind it. -/
theorem Covers.lowered {degrees : Array Nat} {c : CodecId} {cs : List CodecId}
    (h : Covers degrees (c :: cs)) : Covers (degrees.modify c.index (· - 1)) cs := by
  intro v d hd
  rw [Array.getElem?_modify] at hd
  by_cases hc : c = v
  · subst hc
    simp only [if_true, Option.map_eq_some_iff] at hd
    obtain ⟨d', hd', rfl⟩ := hd
    have hle := h c d' hd'
    rw [List.count_cons_self] at hle
    omega
  · have hle := h v d (by simpa [hc] using hd)
    rwa [List.count_cons_of_ne hc] at hle

/-- Taking off the first mention leaves exactly the later ones if it left exactly all. -/
theorem Covers.getElem?_lowered {degrees : Array Nat} {c : CodecId} {cs : List CodecId}
    (h : Covers degrees (c :: cs)) (v : CodecId) :
    (degrees.modify c.index (· - 1))[v.index]? = some (cs.count v) ↔
      degrees[v.index]? = some ((c :: cs).count v) := by
  rw [Array.getElem?_modify]
  by_cases hc : c = v
  · subst hc
    cases hd : degrees[c.index]? with
    | none => simp
    | some d =>
        have hle := h c d hd
        rw [List.count_cons_self] at hle ⊢
        simp only [if_true, Option.map_some, Option.some.injEq]
        omega
  · simp [hc]

/-- A child is free once all its mentions are taken off and its degree is used up. -/
theorem Covers.mem_release {degrees : Array Nat} {cs : List CodecId} (h : Covers degrees cs)
    (v : CodecId) :
    v ∈ (release degrees cs).2 ↔ v ∈ cs ∧ degrees[v.index]? = some (cs.count v) := by
  induction cs generalizing degrees with
  | nil => simp [release]
  | cons c cs ih =>
      have hrest := ih h.lowered
      rw [h.getElem?_lowered] at hrest
      simp only [release]
      split
      · -- this mention is the last one: `c` is not among the children that follow
        rename_i hzero
        have hcount : cs.count c = 0 := Nat.le_zero.1 (h.lowered c 0 hzero)
        rw [List.mem_cons, List.mem_cons, hrest]
        by_cases hv : v = c
        · subst hv
          have := (h.getElem?_lowered v).1 (hcount ▸ hzero)
          simp [this]
        · simp [hv]
      · rename_i hpos
        rw [hrest, List.mem_cons]
        constructor
        · rintro ⟨hmem, hd⟩
          exact ⟨Or.inr hmem, hd⟩
        · rintro ⟨rfl | hmem, hd⟩
          · refine ⟨?_, hd⟩
            by_contra hnot
            rw [← h.getElem?_lowered, List.count_eq_zero.2 hnot] at hd
            exact hpos hd
          · exact ⟨hmem, hd⟩

/-- No child is set free twice. -/
theorem Covers.nodup_release {degrees : Array Nat} {cs : List CodecId} (h : Covers degrees cs) :
    (release degrees cs).2.Nodup := by
  induction cs generalizing degrees with
  | nil => simp [release]
  | cons c cs ih =>
      simp only [release]
      split
      · rename_i hzero
        have hcount : cs.count c = 0 := Nat.le_zero.1 (h.lowered c 0 hzero)
        refine List.nodup_cons.2 ⟨fun hmem => ?_, ih h.lowered⟩
        exact List.count_eq_zero.1 hcount ((h.lowered.mem_release c).1 hmem).1
      · exact ih h.lowered

/-! ## The frontier -/

/-- What ties the codecs that are taken to the degrees and the queue of the others. -/
structure Frontier (children : Array (List CodecId)) (taken : List CodecId)
    (degrees : Array Nat) (queue : List CodecId) : Prop where
  nodup : (taken ++ queue).Nodup
  lt_size : ∀ c ∈ taken ++ queue, c.index < children.size
  /-- Whatever feeds a codec that is taken is taken itself. -/
  closed : ∀ c ∈ taken, ∀ u, c ∈ childrenIn children u → u ∈ taken
  size_eq : degrees.size = children.size
  degree : ∀ (c : CodecId) (d : Nat), degrees[c.index]? = some d →
    d + feeding children taken c = feeding children (codecsOf children) c
  mem_queue : ∀ c : CodecId, c ∉ taken → (c ∈ queue ↔ degrees[c.index]? = some 0)

/-- The state that the loop starts in. -/
theorem frontier_start :
    Frontier children [] (inDegrees children) (codecsWhere (inDegrees children) (· == 0)) where
  nodup := nodup_codecsWhere _ _
  lt_size c hc := by
    obtain ⟨d, hd, -⟩ := mem_codecsWhere.1 hc
    simpa using (Array.getElem?_eq_some_iff.1 hd).1
  closed c hc := absurd hc (List.not_mem_nil)
  size_eq := size_inDegrees
  degree c d hd := by
    have hlt : c.index < children.size := by
      simpa using (Array.getElem?_eq_some_iff.1 hd).1
    rw [getElem?_inDegrees hlt, Option.some.injEq] at hd
    simp [feeding, ← hd]
  mem_queue c _ := by
    rw [mem_codecsWhere]
    constructor
    · rintro ⟨d, hd, hzero⟩
      rw [hd, eq_of_beq hzero]
    · intro hd
      exact ⟨0, hd, rfl⟩

namespace Frontier

variable {taken queue : List CodecId} {degrees : Array Nat} {c : CodecId}

theorem nodup_taken (h : Frontier children taken degrees queue) : taken.Nodup :=
  (List.nodup_append.1 h.nodup).1

theorem taken_lt_size (h : Frontier children taken degrees queue) :
    ∀ u ∈ taken, u.index < children.size :=
  fun u hu => h.lt_size u (List.mem_append_left _ hu)

/-- A codec of degree zero is fed by codecs that are taken. -/
theorem feeders_taken (h : Frontier children taken degrees queue)
    (hzero : degrees[c.index]? = some 0) : ∀ u, c ∈ childrenIn children u → u ∈ taken := by
  have hdegree := h.degree c 0 hzero
  rw [Nat.zero_add] at hdegree
  exact (feeding_eq_iff h.nodup_taken h.taken_lt_size c).1 hdegree

/-- Taking the codec in front moves nothing in the row of taken and waiting codecs. -/
theorem take_head (taken queue free : List CodecId) (c : CodecId) :
    taken ++ [c] ++ (queue ++ free) = taken ++ c :: queue ++ free := by
  simp

section Step

variable (h : Frontier children taken degrees (c :: queue))
include h

theorem head_not_mem : c ∉ taken := fun hc =>
  List.disjoint_of_nodup_append h.nodup hc List.mem_cons_self

theorem head_degree : degrees[c.index]? = some 0 :=
  (h.mem_queue c h.head_not_mem).1 List.mem_cons_self

theorem nodup_taken_head : (taken ++ [c]).Nodup :=
  h.nodup.sublist (List.Sublist.append_left (List.singleton_sublist.2 List.mem_cons_self) _)

theorem taken_head_lt_size : ∀ u ∈ taken ++ [c], u.index < children.size := by
  intro u hu
  refine h.lt_size u ?_
  rcases List.mem_append.1 hu with hu | hu
  · exact List.mem_append_left _ hu
  · exact List.mem_append_right _ (List.mem_singleton.1 hu ▸ List.mem_cons_self)

/-- The degrees are large enough to take off the children of the codec in front. -/
theorem covers : Covers degrees (childrenIn children c) := by
  intro v d hd
  have hdegree := h.degree v d hd
  have hle := feeding_le h.nodup_taken_head h.taken_head_lt_size v
  rw [feeding_append, feeding_singleton] at hle
  omega

/-- A codec that is set free is neither taken nor in the queue already. -/
theorem free_not_mem {v : CodecId} (hv : v ∈ (release degrees (childrenIn children c)).2) :
    v ∉ taken ++ c :: queue := by
  obtain ⟨hchild, hd⟩ := (h.covers.mem_release v).1 hv
  have hpos : 0 < (childrenIn children c).count v := List.count_pos_iff.2 hchild
  have htaken : v ∉ taken := fun hmem => h.head_not_mem (h.closed v hmem c hchild)
  rw [List.mem_append, not_or]
  refine ⟨htaken, fun hqueue => ?_⟩
  rw [(h.mem_queue v htaken).1 hqueue, Option.some.injEq] at hd
  omega

/-- Taking the codec in front keeps the frontier. -/
theorem step : Frontier children (taken ++ [c]) (release degrees (childrenIn children c)).1
    (queue ++ (release degrees (childrenIn children c)).2) where
  nodup := by
    rw [take_head]
    exact List.Nodup.append h.nodup h.covers.nodup_release fun v hv hfree =>
      h.free_not_mem hfree hv
  lt_size v hv := by
    rw [take_head] at hv
    rcases List.mem_append.1 hv with hv | hv
    · exact h.lt_size v hv
    · have hd := ((h.covers.mem_release v).1 hv).2
      exact h.size_eq ▸ (Array.getElem?_eq_some_iff.1 hd).1
  closed v hv u hu := by
    rcases List.mem_append.1 hv with hv | hv
    · exact List.mem_append_left _ (h.closed v hv u hu)
    · obtain rfl := List.mem_singleton.1 hv
      exact List.mem_append_left _ (h.feeders_taken h.head_degree u hu)
  size_eq := by rw [size_release, h.size_eq]
  degree v d hd := by
    rw [getElem?_release, Option.map_eq_some_iff] at hd
    obtain ⟨d', hd', rfl⟩ := hd
    have hle := h.covers v d' hd'
    have hdegree := h.degree v d' hd'
    rw [feeding_append, feeding_singleton]
    omega
  mem_queue v hv := by
    obtain ⟨htaken, hne⟩ : v ∉ taken ∧ v ≠ c := by simpa using hv
    have hqueue : v ∈ queue ↔ degrees[v.index]? = some 0 := by
      rw [← h.mem_queue v htaken, List.mem_cons]
      exact ⟨Or.inr, fun hor => hor.resolve_left hne⟩
    rw [List.mem_append, hqueue, h.covers.mem_release, getElem?_release]
    cases hd : degrees[v.index]? with
    | none => simp
    | some d =>
        have hle := h.covers v d hd
        simp only [Option.some.injEq, Option.map_some]
        -- the mentions of a child are taken off its degree, and it is free if that makes zero
        by_cases hchild : v ∈ childrenIn children c
        · have := List.count_pos_iff.2 hchild
          simp only [hchild, true_and]
          omega
        · rw [List.count_eq_zero.2 hchild]
          simp [hchild]

end Step

end Frontier

/-! ## A full run -/

/-- Codecs each of which is fed only by those before it and those that are taken. -/
def Ready (children : Array (List CodecId)) : List CodecId → List CodecId → Prop
  | _, [] => True
  | taken, c :: rest =>
    (∀ u, c ∈ childrenIn children u → u ∈ taken) ∧ Ready children (taken ++ [c]) rest

/-- Once all codecs are taken, there is no room for another one in the queue. -/
theorem Frontier.queue_eq_nil {taken queue : List CodecId} {degrees : Array Nat}
    (h : Frontier children taken degrees queue) (hall : children.size ≤ taken.length) :
    queue = [] := by
  obtain ⟨rest, hrest⟩ := exists_rest h.nodup h.lt_size
  have hlength := hrest.length_eq
  simp only [List.length_append, length_codecsOf] at hlength
  exact List.length_eq_zero_iff.1 (by omega)

/-- Enough steps empty the queue, and whatever leaves it does so behind its feeders. -/
theorem Frontier.drain {taken queue : List CodecId} {degrees : Array Nat} {steps : Nat}
    (h : Frontier children taken degrees queue) (hsteps : children.size ≤ steps + taken.length) :
    Frontier children (taken ++ (drain children steps degrees queue).1)
        (drain children steps degrees queue).2 [] ∧
      Ready children taken (drain children steps degrees queue).1 := by
  induction steps generalizing taken degrees queue with
  | zero =>
      obtain rfl := h.queue_eq_nil (by omega)
      simpa [Dag.drain, Ready] using h
  | succ steps ih =>
      cases queue with
      | nil => simpa [Dag.drain, Ready] using h
      | cons c queue =>
          have hrun := ih h.step (by simp only [List.length_append, List.length_singleton]; omega)
          refine ⟨?_, h.feeders_taken h.head_degree, ?_⟩
          · simpa [Dag.drain] using hrun.1
          · simpa [Dag.drain] using hrun.2

end TraceFold.Dag
