/-
  TraceFold.Proofs.Dag.Order

  When codecs can be put in order, and what the order is.  A table of children gives an
  order exactly if no codec feeds itself through others (`exists_ofChildren_iff`).  The
  order then names every codec of the table once, each one behind all that feed it
  (`Sorted`), and the table of places is its inverse (`Sorted.getElem?_placesOf_iff`).
-/

import Mathlib.Data.Set.Finite.Basic
import Mathlib.Logic.Relation
import Mathlib.Order.WellFoundedSet
import TraceFold.Proofs.Dag.Frontier

namespace TraceFold.Dag

open Relation (TransGen)

variable {children : Array (List CodecId)} {order : List CodecId}

/-- A codec lists another one as a child. -/
def Child (children : Array (List CodecId)) (u v : CodecId) : Prop :=
  v ∈ childrenIn children u

/-- All codecs of a table, each behind those that feed it. -/
structure Sorted (children : Array (List CodecId)) (order : List CodecId) : Prop where
  nodup : order.Nodup
  mem_iff : ∀ c, c ∈ order ↔ c.index < children.size
  before : ∀ u v, Child children u v → order.idxOf u < order.idxOf v

/-! ## From a full run to an order -/

theorem Ready.before {taken : List CodecId} (h : Ready children taken order)
    (hnodup : (taken ++ order).Nodup) {u v : CodecId} (hv : v ∈ order)
    (huv : Child children u v) : u ∈ taken ∨ order.idxOf u < order.idxOf v := by
  induction order generalizing taken with
  | nil => exact absurd hv List.not_mem_nil
  | cons c rest ih =>
      obtain ⟨hc, hrest⟩ := h
      rcases List.mem_cons.1 hv with rfl | hv
      · exact Or.inl (hc u huv)
      · have hne : c ≠ v := by
          have hcons := (List.nodup_append.1 hnodup).2.1
          rintro rfl
          exact (List.nodup_cons.1 hcons).1 hv
        rw [List.idxOf_cons_ne _ hne]
        have hsplit := ih hrest (by simpa using hnodup) hv
        rw [List.mem_append, List.mem_singleton] at hsplit
        rcases hsplit with (hu | rfl) | hlt
        · exact Or.inl hu
        · right
          rw [List.idxOf_cons_self]
          omega
        · right
          by_cases hcu : c = u
          · rw [hcu, List.idxOf_cons_self]
            omega
          · rw [List.idxOf_cons_ne _ hcu]
            omega

/-- The run of the loop over a whole table. -/
theorem frontier_end (children : Array (List CodecId)) :
    let run := drain children children.size (inDegrees children)
      (codecsWhere (inDegrees children) (· == 0))
    Frontier children run.1 run.2 [] ∧ Ready children [] run.1 := by
  have henough : children.size ≤ children.size + ([] : List CodecId).length := Nat.le_add_right _ _
  exact frontier_start.drain henough

/-- A run that takes as many codecs as there are gives all of them in order. -/
theorem sorted_of_length {degrees : Array Nat} (h : Frontier children order degrees [])
    (hready : Ready children [] order) (hlength : order.length = children.size) :
    Sorted children order := by
  have hmem : ∀ c, c ∈ order ↔ c.index < children.size := by
    have hsub : order ⊆ codecsOf children := fun c hc => mem_codecsOf.2 (h.taken_lt_size c hc)
    have hperm := (List.subperm_of_subset h.nodup_taken hsub).perm_of_length_le
      (by rw [length_codecsOf, hlength])
    intro c
    rw [hperm.mem_iff, mem_codecsOf]
  refine ⟨h.nodup_taken, hmem, fun u v huv => ?_⟩
  by_cases hv : v ∈ order
  · exact (hready.before (by simpa using h.nodup_taken) hv huv).resolve_left List.not_mem_nil
  · -- a child outside of the table counts as the last one
    rw [List.idxOf_eq_length hv]
    exact List.idxOf_lt_length_of_mem ((hmem u).2 (index_lt_of_mem_childrenIn huv))

theorem ofChildren_eq_ok {d : Dag} (h : ofChildren children = .ok d) :
    d.children = children ∧ Sorted children d.order ∧
      d.places = placesOf children.size d.order := by
  obtain ⟨hend, hready⟩ := frontier_end children
  simp only [ofChildren] at h
  split at h
  · rename_i hlength
    obtain rfl := Except.ok.inj h
    exact ⟨rfl, sorted_of_length hend hready hlength, rfl⟩
  · cases h

/-! ## Places in the order -/

section Places

variable {places : Array Nat} {c : CodecId} {i k size : Nat}

/-- The codecs that are not entered keep their places. -/
theorem getElem?_enterPlaces_of_notMem (hc : c ∉ order) :
    (enterPlaces places i order)[c.index]? = places[c.index]? := by
  induction order generalizing places i with
  | nil => rfl
  | cons v rest ih =>
      have hne : v.index ≠ c.index := by
        rw [Ne, CodecId.index_inj]
        rintro rfl
        exact hc List.mem_cons_self
      rw [enterPlaces, ih fun h => hc (List.mem_cons_of_mem v h),
        Array.getElem?_setIfInBounds_ne hne]

/-- Of codecs that differ from each other, each one is entered with its own place. -/
theorem getElem?_enterPlaces (hnodup : order.Nodup) (hc : c.index < places.size)
    (hget : order[k]? = some c) : (enterPlaces places i order)[c.index]? = some (i + k) := by
  induction order generalizing places i k with
  | nil => simp at hget
  | cons v rest ih =>
      obtain ⟨hv, hrest⟩ := List.nodup_cons.1 hnodup
      cases k with
      | zero =>
        -- what is entered later leaves the head alone
        obtain rfl : v = c := by simpa using hget
        rw [enterPlaces, getElem?_enterPlaces_of_notMem hv,
          Array.getElem?_setIfInBounds_self_of_lt hc, Nat.add_zero]
      | succ k =>
        have hset : c.index < (places.setIfInBounds v.index i).size := by
          rwa [Array.size_setIfInBounds]
        rw [enterPlaces, ih hrest hset (by simpa using hget), Nat.add_right_comm, Nat.add_assoc]

theorem size_enterPlaces : (enterPlaces places i order).size = places.size := by
  induction order generalizing places i with
  | nil => rfl
  | cons v rest ih => rw [enterPlaces, ih, Array.size_setIfInBounds]

/-- The table of places is the inverse of the order. -/
theorem Sorted.getElem?_placesOf_iff (h : Sorted children order) :
    (placesOf children.size order)[c.index]? = some i ↔ order[i]? = some c := by
  have hentry : ∀ k, order[k]? = some c →
      (placesOf children.size order)[c.index]? = some k := by
    intro k hget
    have hc : c.index < (Array.replicate children.size 0).size := by
      rw [Array.size_replicate]
      exact (h.mem_iff c).1 (List.mem_of_getElem? hget)
    rw [placesOf, getElem?_enterPlaces h.nodup hc hget, Nat.zero_add]
  refine ⟨fun hplace => ?_, hentry i⟩
  -- a codec that has a place is in the table, so it is somewhere in the order
  have hc : c.index < children.size := by
    have hlt := (Array.getElem?_eq_some_iff.1 hplace).1
    rwa [placesOf, size_enterPlaces, Array.size_replicate] at hlt
  obtain ⟨k, hget⟩ := List.getElem?_of_mem ((h.mem_iff c).2 hc)
  obtain rfl : i = k := Option.some.inj (hplace.symm.trans (hentry k hget))
  exact hget

end Places

/-! ## Orders and cycles -/

/-- Whatever feeds a codec through others comes before it. -/
theorem Sorted.before_of_transGen (h : Sorted children order) {u v : CodecId}
    (huv : TransGen (Child children) u v) : order.idxOf u < order.idxOf v := by
  induction huv with
  | single h1 => exact h.before _ _ h1
  | tail _ h1 ih => exact ih.trans (h.before _ _ h1)

theorem Sorted.acyclic (h : Sorted children order) (c : CodecId) :
    ¬TransGen (Child children) c c :=
  fun hc => Nat.lt_irrefl _ (h.before_of_transGen hc)

/-- If none of the codecs of a property is on a cycle, one of them has no feeder of that
    property. -/
theorem exists_without_feeder {p : CodecId → Prop}
    (hacyclic : ∀ c, p c → ¬TransGen (Child children) c c)
    (hlt : ∀ c, p c → c.index < children.size) (hp : ∃ c, p c) :
    ∃ c, p c ∧ ∀ u, Child children u c → ¬p u := by
  -- feeding is well-founded on a finite set of codecs that has no cycle
  have hfinite : {c | p c}.Finite := by
    refine (codecsOf children).finite_toSet.subset fun c hc => ?_
    exact mem_codecsOf.2 (hlt c hc)
  have : IsStrictOrder CodecId fun u v => TransGen (Child children) u v ∧ p v :=
    { irrefl := fun c hc => hacyclic c hc.2 hc.1
      trans := fun _ _ _ huv hvw => ⟨huv.1.trans hvw.1, hvw.2⟩ }
  by_contra hfed
  push Not at hfed
  obtain ⟨c, hc⟩ := hp
  have hwf : {c | p c}.WellFoundedOn fun u v => TransGen (Child children) u v ∧ p v :=
    hfinite.wellFoundedOn
  refine hwf.induction (P := fun _ => False) hc fun v hv ih => ?_
  obtain ⟨u, huv, hu⟩ := hfed v hv
  exact ih u hu ⟨.single huv, hv⟩

/-- Once the queue is empty, a codec that is left over is fed by one that is left over. -/
theorem Frontier.exists_feeder_left {degrees : Array Nat}
    (h : Frontier children order degrees []) {c : CodecId} (hc : c.index < children.size)
    (hleft : c ∉ order) : ∃ u, Child children u c ∧ u ∉ order := by
  by_contra hall
  push Not at hall
  have hfull := (feeding_eq_iff h.nodup_taken h.taken_lt_size c).2 hall
  obtain ⟨d, hd⟩ : ∃ d, degrees[c.index]? = some d :=
    ⟨_, Array.getElem?_eq_getElem (h.size_eq ▸ hc)⟩
  have hdegree := h.degree c d hd
  obtain rfl : d = 0 := by omega
  exact absurd ((h.mem_queue c hleft).2 hd) List.not_mem_nil

/-- Codecs can be put in order exactly if none feeds itself through others. -/
theorem exists_ofChildren_iff :
    (∃ d, ofChildren children = .ok d) ↔ ∀ c, ¬TransGen (Child children) c c := by
  constructor
  · rintro ⟨d, hd⟩
    exact (ofChildren_eq_ok hd).2.1.acyclic
  · intro hacyclic
    obtain ⟨hend, -⟩ := frontier_end children
    have hall : ∀ c : CodecId, c.index < children.size → c ∈ (drain children children.size
        (inDegrees children) (codecsWhere (inDegrees children) (· == 0))).1 := by
      by_contra hsome
      push Not at hsome
      obtain ⟨c, ⟨hc, hleft⟩, hfed⟩ :=
        exists_without_feeder (fun c _ => hacyclic c) (fun _ => And.left) hsome
      obtain ⟨u, huc, hu⟩ := hend.exists_feeder_left hc hleft
      exact hfed u huc ⟨index_lt_of_mem_childrenIn huc, hu⟩
    -- the order has all codecs, none twice, so it is as long as the table
    have hlength : (drain children children.size (inDegrees children)
        (codecsWhere (inDegrees children) (· == 0))).1.length = children.size := by
      have hperm := (List.perm_ext_iff_of_nodup hend.nodup_taken nodup_codecsOf).2 fun c =>
        ⟨fun hc => mem_codecsOf.2 (hend.taken_lt_size c hc), fun hc => hall c (mem_codecsOf.1 hc)⟩
      rw [hperm.length_eq, length_codecsOf]
    simp [ofChildren, hlength]

end TraceFold.Dag
