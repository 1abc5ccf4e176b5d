/-
  TraceFold.Proofs.Folding.DepthFirst

  The order in which a walk finds codecs.  To follow every path down from a codec, depth
  first and with children in their order, gives a listing that names a codec once for each
  path to it (`Listing`).  A walk follows no path that leads to what it has found already,
  and still finds the codecs in the order in which the listing names them first
  (`descendants_eq_eraseDups`): a codec that it comes to again is not below itself, so all
  that is below it has been found by then.
-/

import Mathlib.Data.List.Lattice
import TraceFold.Proofs.Folding.Reachable
import TraceFold.Proofs.Lists

namespace TraceFold.Scene

open Dag (Child)

variable {s : Scene} {f : Folding} {d : Descent} {start u v : CodecId}
  {pending found rest listed : List CodecId}

/-- What a descent comes to along every path from some codecs, depth first. -/
inductive Listing (s : Scene) (f : Folding) (d : Descent) : List CodecId → List CodecId → Prop
  | nil : Listing s f d [] []
  /-- A codec that the descent does not meet is left out. -/
  | skip {c : CodecId} {rest later : List CodecId} : s.meets d c = false →
      Listing s f d rest later → Listing s f d (c :: rest) later
  /-- A codec that it does not go on from stands alone. -/
  | stop {c : CodecId} {rest later : List CodecId} : s.meets d c → f.goesOn d c = false →
      Listing s f d rest later → Listing s f d (c :: rest) (c :: later)
  /-- Any other codec stands before what is listed from its children. -/
  | on {c : CodecId} {rest inner later : List CodecId} : s.meets d c → f.goesOn d c →
      Listing s f d (s.dag.childrenOf c) inner → Listing s f d rest later →
      Listing s f d (c :: rest) (c :: (inner ++ later))

/-! ## Every codec has a listing -/

theorem exists_listing_of_forall (h : ∀ c ∈ pending, ∃ inner,
    s.Listing f d (s.dag.childrenOf c) inner) : ∃ listed, s.Listing f d pending listed := by
  induction pending with
  | nil => exact ⟨[], .nil⟩
  | cons c rest ih =>
    obtain ⟨inner, hinner⟩ := h c List.mem_cons_self
    obtain ⟨later, hlater⟩ := ih fun v hv => h v (List.mem_cons_of_mem c hv)
    cases hmeets : s.meets d c with
    | false => exact ⟨later, .skip hmeets hlater⟩
    | true =>
      cases hgo : f.goesOn d c with
      | false => exact ⟨c :: later, .stop hmeets hgo hlater⟩
      | true => exact ⟨c :: (inner ++ later), .on hmeets hgo hinner hlater⟩

/-- The paths down from a codec come to an end, since each goes forwards in the order of the
    codecs. -/
theorem Sound.exists_listing (hs : s.Sound) (f : Folding) (d : Descent) (u : CodecId) :
    ∃ listed, s.Listing f d (s.dag.childrenOf u) listed := by
  induction hleft : s.dag.order.length - s.dag.order.idxOf u using Nat.strongRecOn
    generalizing u with
  | _ left ih =>
    refine exists_listing_of_forall fun v hv => ih _ ?_ v rfl
    have hbefore : s.dag.order.idxOf u < s.dag.order.idxOf v := hs.sorted.before u v hv
    have hle : s.dag.order.idxOf v ≤ s.dag.order.length := List.idxOf_le_length
    omega

namespace Listing

/-- There is one listing only. -/
theorem unique {listed' : List CodecId} (h : s.Listing f d pending listed)
    (h' : s.Listing f d pending listed') : listed = listed' := by
  -- induction on one listing; how it treats its first codec leaves the other one no choice
  induction h generalizing listed' with
  | nil =>
    cases h'
    rfl
  | skip hnot _ ih =>
    cases h' with
    | skip _ h' => exact ih h'
    | stop hmeets _ _ => simp [hnot] at hmeets
    | on hmeets _ _ _ => simp [hnot] at hmeets
  | stop hmeets hstop _ ih =>
    cases h' with
    | skip hnot _ => simp [hnot] at hmeets
    | stop _ _ h' => rw [ih h']
    | on _ hgo _ _ => simp [hstop] at hgo
  | on hmeets hgo _ _ ihinner ihlater =>
    cases h' with
    | skip hnot _ => simp [hnot] at hmeets
    | stop _ hstop _ => simp [hstop] at hgo
    | on _ _ hinner hlater => rw [ihinner hinner, ihlater hlater]

variable (h : s.Listing f d pending listed)
include h

/-- What holds of the codecs that a descent starts with, and of the children of whatever it
    holds of, holds of all that is listed. -/
theorem forall_mem {p : CodecId → Prop} (hclosed : ∀ u v, p u → Child s.dag.children u v → p v)
    (hpending : ∀ v ∈ pending, p v) : ∀ v ∈ listed, p v := by
  induction h with
  | nil => exact fun _ hv => absurd hv List.not_mem_nil
  | skip _ _ ih => exact ih (List.forall_mem_cons.1 hpending).2
  | stop _ _ _ ih =>
    obtain ⟨hc, hrest⟩ := List.forall_mem_cons.1 hpending
    exact List.forall_mem_cons.2 ⟨hc, ih hrest⟩
  | @on c _ _ _ _ _ _ _ ihinner ihlater =>
    obtain ⟨hc, hrest⟩ := List.forall_mem_cons.1 hpending
    refine List.forall_mem_cons.2 ⟨hc, List.forall_mem_append.2 ⟨?_, ihlater hrest⟩⟩
    exact ihinner fun v hv => hclosed c v hc hv

theorem mem_of_pending (hv : v ∈ pending) (hmeets : s.meets d v) : v ∈ listed := by
  induction h with
  | nil => exact absurd hv List.not_mem_nil
  | skip hnot _ ih =>
    rcases List.mem_cons.1 hv with rfl | hv
    · rw [hnot] at hmeets
      cases hmeets
    · exact ih hv
  | stop _ _ _ ih =>
    rcases List.mem_cons.1 hv with rfl | hv
    · exact List.mem_cons_self
    · exact List.mem_cons_of_mem _ (ih hv)
  | on _ _ _ _ _ ihlater =>
    rcases List.mem_cons.1 hv with rfl | hv
    · exact List.mem_cons_self
    · exact List.mem_cons_of_mem _ (List.mem_append_right _ (ihlater hv))

/-- What is listed is closed under going on. -/
theorem mem_of_child (hu : u ∈ listed) (hgo : f.goesOn d u) (huv : Child s.dag.children u v)
    (hmeets : s.meets d v) : v ∈ listed := by
  induction h with
  | nil => exact absurd hu List.not_mem_nil
  | skip _ _ ih => exact ih hu
  | stop _ hstop _ ih =>
    rcases List.mem_cons.1 hu with rfl | hu
    · rw [hstop] at hgo
      cases hgo
    · exact List.mem_cons_of_mem _ (ih hu)
  | on _ _ hinner _ ihinner ihlater =>
    refine List.mem_cons_of_mem _ (List.mem_append.2 ?_)
    rcases List.mem_cons.1 hu with rfl | hu
    · exact Or.inl (hinner.mem_of_pending huv hmeets)
    · exact (List.mem_append.1 hu).imp ihinner ihlater

end Listing

/-! ## A walk follows the listing -/

/-- Whatever has been found and is to be listed again has been done with: the codecs that the
    descent goes on to from it have been found as well. -/
def DoneWith (s : Scene) (f : Folding) (d : Descent) (found listed : List CodecId) : Prop :=
  ∀ u ∈ found, u ∈ listed → f.goesOn d u → ∀ v, Child s.dag.children u v → s.meets d v →
    v ∈ found

theorem DoneWith.mono {listed' : List CodecId} (h : s.DoneWith f d found listed)
    (hsub : ∀ u ∈ listed', u ∈ listed) : s.DoneWith f d found listed' :=
  fun u hu hlisted => h u hu (hsub u hlisted)

/-- What is below codecs that have been done with has all been found. -/
theorem DoneWith.forall_mem (h : s.DoneWith f d found listed)
    (hlisted : s.Listing f d pending listed)
    (hpending : ∀ v ∈ pending, s.meets d v → v ∈ found) : ∀ v ∈ listed, v ∈ found := by
  induction hlisted with
  | nil => exact fun _ hv => absurd hv List.not_mem_nil
  | skip _ _ ih => exact ih h (List.forall_mem_cons.1 hpending).2
  | stop hmeets _ _ ih =>
    obtain ⟨hc, hrest⟩ := List.forall_mem_cons.1 hpending
    have hlater := ih (h.mono fun u => List.mem_cons_of_mem _) hrest
    exact List.forall_mem_cons.2 ⟨hc hmeets, hlater⟩
  | @on c _ inner later hmeets hgo _ _ ihinner ihlater =>
    obtain ⟨hc, hrest⟩ := List.forall_mem_cons.1 hpending
    have hrests := ihlater (h.mono fun u hu => by simp [hu]) hrest
    have hinner := ihinner (h.mono fun u hu => by simp [hu])
      (h c (hc hmeets) List.mem_cons_self hgo)
    exact List.forall_mem_cons.2 ⟨hc hmeets, List.forall_mem_append.2 ⟨hinner, hrests⟩⟩

/-- The listing from a new codec's children does not name the codec, so it makes no difference
    there that the codec has been found. -/
theorem DoneWith.inner (hs : s.Sound) {c : CodecId} {inner : List CodecId}
    (h : s.DoneWith f d found inner) (hinner : s.Listing f d (s.dag.childrenOf c) inner) :
    s.DoneWith f d (c :: found) inner := by
  have hbelow : ∀ v ∈ inner, s.Below c v := by
    refine hinner.forall_mem (p := s.Below c) (fun u v hu huv => hu.tail huv) fun v hv => ?_
    exact .single hv
  intro u hu hlisted hgo v huv hmeets
  rcases List.mem_cons.1 hu with rfl | hu
  · exact absurd rfl (hs.ne_of_below (hbelow u hlisted))
  · exact List.mem_cons_of_mem c (h u hu hlisted hgo v huv hmeets)

/-- Once what is listed from a codec's children has been noted, the codec and all of that
    are done with. -/
theorem DoneWith.later {c : CodecId} {inner later : List CodecId}
    (h : s.DoneWith f d found later) (hinner : s.Listing f d (s.dag.childrenOf c) inner) :
    s.DoneWith f d (inner.reverse ∪ (c :: found)) later := by
  intro u hu hlisted hgo v huv hmeets
  simp only [List.mem_union_iff, List.mem_reverse, List.mem_cons] at hu ⊢
  rcases hu with hu | rfl | hu
  · exact Or.inl (hinner.mem_of_child hu hgo huv hmeets)
  · exact Or.inl (hinner.mem_of_pending huv hmeets)
  · exact Or.inr (Or.inr (h u hu hlisted hgo v huv hmeets))

/-- A walk through what is pending notes what is listed from there, in that order and each
    codec where it is new, and then goes on with the rest. -/
theorem Listing.walk_append (hs : s.Sound) (h : s.Listing f d pending listed)
    (hdone : s.DoneWith f d found listed) :
    s.walk f d (pending ++ rest) found = s.walk f d rest (listed.reverse ∪ found) := by
  induction h generalizing found rest with
  | nil => rfl
  | @skip c _ _ hnot _ ih =>
    rw [← ih hdone, List.cons_append, walk, hnot]
    simp
  | @stop c _ later hmeets hstop _ ih =>
    have hlater : s.DoneWith f d found later := hdone.mono fun u => List.mem_cons_of_mem c
    rw [List.cons_append, walk, if_pos hmeets, hstop, cons_reverse_union]
    by_cases hc : c ∈ found
    · rw [dif_pos hc, List.insert_of_mem hc]
      exact ih hlater
    · rw [dif_neg hc, List.insert_of_not_mem hc]
      refine ih fun u hu hlisted hgo v huv hmeets => ?_
      rcases List.mem_cons.1 hu with rfl | hu
      · rw [hstop] at hgo
        cases hgo
      · exact List.mem_cons_of_mem c (hlater u hu hlisted hgo v huv hmeets)
  | @on c _ inner later hmeets hgo hlisted _ ihinner ihlater =>
    have hinner : s.DoneWith f d found inner := hdone.mono fun u hu => by simp [hu]
    have hlater : s.DoneWith f d found later := hdone.mono fun u hu => by simp [hu]
    rw [List.cons_append, walk, if_pos hmeets, if_pos hgo, cons_reverse_union,
      List.reverse_append, append_union]
    by_cases hc : c ∈ found
    · -- nothing that is listed from the children is new
      have hall : ∀ v ∈ inner, v ∈ found :=
        hinner.forall_mem hlisted (hdone c hc List.mem_cons_self hgo)
      rw [dif_pos hc, List.insert_of_mem hc,
        List.Subset.union_eq_right fun v hv => hall v (List.mem_reverse.1 hv)]
      exact ihlater hlater
    · rw [dif_neg hc, List.insert_of_not_mem hc, ihinner (hinner.inner hs hlisted),
        ihlater (hlater.later hlisted)]

/-- A descent finds the codecs below another one in the order in which following all paths
    names them first. -/
theorem descendants_eq_eraseDups (hs : s.Sound)
    (h : s.Listing f d (s.dag.childrenOf start) listed) :
    s.descendants f d start = listed.eraseDups := by
  have hwalk : s.walk f d (s.dag.childrenOf start ++ []) [] = s.walk f d [] (listed.reverse ∪ []) :=
    h.walk_append hs fun _ hu => absurd hu List.not_mem_nil
  rw [List.append_nil, walk, reverse_union_nil] at hwalk
  rw [descendants_eq_walk, hwalk]

end TraceFold.Scene
