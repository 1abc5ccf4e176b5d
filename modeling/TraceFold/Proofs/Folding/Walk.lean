/-
  TraceFold.Proofs.Folding.Walk

  What a descent from a codec meets.  The codecs that its frames have left to try make one
  list if they are put end to end, and a walk that keeps just this list finds the same
  codecs in the same order (`descend_eq_walk`).  A codec is met if a path leads to it on
  which every codec is met and the descent goes on from every codec before the last
  (`Met`), and a walk finds exactly these (`mem_descendants`): all that it finds is met,
  and what it finds is closed under going on.
-/

import Mathlib.Logic.Relation
import TraceFold.Folding.Descent
import TraceFold.Proofs.Dag.Order

namespace TraceFold.Scene

open Relation (TransGen)
open Dag (Child)

variable {s : Scene} {f f' : Folding} {d : Descent} {start u v c : CodecId}
  {pending found : List CodecId}

/-! ## A descent as a walk through one list -/

/-- What a walk finds that tries the codecs of `pending` in order; `found` is what it has
    found before, latest first. -/
def walk (s : Scene) (f : Folding) (d : Descent) (pending found : List CodecId) : List CodecId :=
  match pending with
  | [] => found.reverse
  | c :: rest =>
    if _hc : c ∈ found then s.walk f d rest found
    else if s.meets d c then
      -- children come in front of what is pending, so the walk goes depth first
      if f.goesOn d c then s.walk f d (s.dag.childrenOf c ++ rest) (c :: found)
      else s.walk f d rest (c :: found)
    else s.walk f d rest found
termination_by pending.length + s.dag.unfound found
decreasing_by
  · simp
  · have := s.dag.unfound_cons _hc
    simp
    omega
  · have := s.dag.unfound_cons _hc
    simp
    omega
  · simp

/-- A walk skips a codec that it need not find. -/
theorem walk_cons_of_skip {rest : List CodecId} (h : ¬(s.meets d c ∧ c ∉ found)) :
    s.walk f d (c :: rest) found = s.walk f d rest found := by
  rw [walk]
  by_cases hc : c ∈ found
  · rw [dif_pos hc]
  · have hmeets : ¬s.meets d c := fun hm => h ⟨hm, hc⟩
    rw [dif_neg hc, if_neg hmeets]

/-- A descent finds what a walk through all that its frames have left to try finds. -/
theorem descend_eq_walk {stack : List Frame} :
    s.descend f d stack found = s.walk f d (s.dag.leftOn stack) found := by
  fun_induction descend s f d stack found with
  | case1 found => rw [Dag.leftOn, List.flatMap_nil, walk]
  | case2 found frame outer hnext ih =>
    -- the frame has run out, and nothing of it was left
    rw [ih, Dag.leftOn_cons, Dag.leftIn_of_none hnext, List.nil_append]
  | case3 found frame outer c hnext advanced hnew hgo ih =>
    obtain ⟨hmeets, hc⟩ := hnew
    -- a new frame has all children of its codec left
    have hopened : s.dag.leftIn { codec := c } = s.dag.childrenOf c := rfl
    rw [ih, Dag.leftOn_cons, hopened, Dag.leftOn_cons, Dag.leftOn_cons,
      Dag.leftIn_of_some hnext, List.cons_append, walk, dif_neg hc, if_pos hmeets, if_pos hgo]
  | case4 found frame outer c hnext advanced hnew hstop ih =>
    obtain ⟨hmeets, hc⟩ := hnew
    rw [ih, Dag.leftOn_cons, Dag.leftOn_cons, Dag.leftIn_of_some hnext, List.cons_append, walk,
      dif_neg hc, if_pos hmeets, if_neg hstop]
  | case5 found frame outer c hnext advanced hskip ih =>
    rw [ih, Dag.leftOn_cons, Dag.leftOn_cons, Dag.leftIn_of_some hnext, List.cons_append,
      walk_cons_of_skip hskip]

/-- A descent from a codec finds what a walk through its children finds. -/
theorem descendants_eq_walk : s.descendants f d start = s.walk f d (s.dag.childrenOf start) [] := by
  have hopened : s.dag.leftOn [{ codec := start }] = s.dag.childrenOf start :=
    List.append_nil (s.dag.childrenOf start)
  rw [descendants, descend_eq_walk, hopened]

/-! ## What is met -/

/-- A descent from a codec meets another one. -/
inductive Met (s : Scene) (f : Folding) (d : Descent) (start : CodecId) : CodecId → Prop
  | child {v : CodecId} : Child s.dag.children start v → s.meets d v → Met s f d start v
  | further {u v : CodecId} : Met s f d start u → f.goesOn d u → Child s.dag.children u v →
      s.meets d v → Met s f d start v

/-! ## A walk finds what is met -/

/-- What a walk finds is met. -/
theorem met_of_mem_walk (hpending : ∀ v ∈ pending, s.meets d v → s.Met f d start v)
    (hfound : ∀ v ∈ found, s.Met f d start v) (hv : v ∈ s.walk f d pending found) :
    s.Met f d start v := by
  fun_induction walk s f d pending found with
  | case1 found => exact hfound v (List.mem_reverse.1 hv)
  | case2 found c rest _ ih =>
    exact ih (fun w hw => hpending w (List.mem_cons_of_mem c hw)) hfound hv
  | case3 found c rest _ hmeets hon ih =>
    -- `c` is met, and so are the children that the walk goes on to from it
    have hc : s.Met f d start c := hpending c List.mem_cons_self hmeets
    refine ih (fun w hw hw' => ?_) (List.forall_mem_cons.2 ⟨hc, hfound⟩) hv
    rcases List.mem_append.1 hw with hw | hw
    · exact .further hc hon hw hw'
    · exact hpending w (List.mem_cons_of_mem c hw) hw'
  | case4 found c rest _ hmeets _ ih =>
    have hc : s.Met f d start c := hpending c List.mem_cons_self hmeets
    exact ih (fun w hw => hpending w (List.mem_cons_of_mem c hw))
      (List.forall_mem_cons.2 ⟨hc, hfound⟩) hv
  | case5 found c rest _ _ ih =>
    exact ih (fun w hw => hpending w (List.mem_cons_of_mem c hw)) hfound hv

/-- A codec has been found or is to be tried, and will be found then. -/
def Due (s : Scene) (d : Descent) (pending found : List CodecId) (v : CodecId) : Prop :=
  v ∈ found ∨ v ∈ pending ∧ s.meets d v

/-- Nothing that is due is lost if a codec is skipped that need not be found. -/
theorem Due.skip {rest : List CodecId} (h : s.Due d (c :: rest) found v)
    (hc : c ∈ found ∨ s.meets d c = false) : s.Due d rest found v := by
  rcases h with hv | ⟨hv, hmeets⟩
  · exact Or.inl hv
  · rcases List.mem_cons.1 hv with rfl | hv
    · refine Or.inl (hc.resolve_right ?_)
      simp [hmeets]
    · exact Or.inr ⟨hv, hmeets⟩

/-- Nothing that is due is lost if a codec is found and more are to be tried. -/
theorem Due.find {rest : List CodecId} (h : s.Due d (c :: rest) found v)
    (hrest : ∀ w ∈ rest, w ∈ pending) : s.Due d pending (c :: found) v := by
  rcases h with hv | ⟨hv, hmeets⟩
  · exact Or.inl (List.mem_cons_of_mem c hv)
  · rcases List.mem_cons.1 hv with rfl | hv
    · exact Or.inl List.mem_cons_self
    · exact Or.inr ⟨hrest v hv, hmeets⟩

/-- A walk finds what is due. -/
theorem Due.mem_walk (h : s.Due d pending found v) : v ∈ s.walk f d pending found := by
  fun_induction walk s f d pending found with
  | case1 found => simpa [Due] using h
  | case2 found c rest hc ih => exact ih (h.skip (Or.inl hc))
  | case3 found c rest _ _ _ ih => exact ih (h.find fun _ => List.mem_append_right _)
  | case4 found c rest _ _ _ ih => exact ih (h.find fun _ hw => hw)
  | case5 found c rest _ hnot ih => exact ih (h.skip (Or.inr (Bool.eq_false_iff.2 hnot)))

/-- Every child that a walk is to go on to is due. -/
def Pursued (s : Scene) (f : Folding) (d : Descent) (pending found : List CodecId) : Prop :=
  ∀ u ∈ found, f.goesOn d u → ∀ v, Child s.dag.children u v → s.meets d v →
    s.Due d pending found v

/-- What a walk finds is closed under going on. -/
theorem Pursued.walk (h : s.Pursued f d pending found) :
    s.Pursued f d [] (s.walk f d pending found) := by
  fun_induction Scene.walk s f d pending found with
  | case1 found => simpa [Pursued, Due] using h
  | case2 found c rest hc ih =>
    exact ih fun u hu hon v huv hv => (h u hu hon v huv hv).skip (Or.inl hc)
  | case3 found c rest _ _ _ ih =>
    refine ih fun u hu hon v huv hv => ?_
    -- the children of `c` are put in front of what is pending
    rcases List.mem_cons.1 hu with rfl | hu
    · exact Or.inr ⟨List.mem_append_left rest huv, hv⟩
    · exact (h u hu hon v huv hv).find fun _ => List.mem_append_right _
  | case4 found c rest _ _ hstop ih =>
    refine ih fun u hu hon v huv hv => ?_
    rcases List.mem_cons.1 hu with rfl | hu
    · exact absurd hon hstop
    · exact (h u hu hon v huv hv).find fun _ hw => hw
  | case5 found c rest _ hnot ih =>
    refine ih fun u hu hon v huv hv => ?_
    exact (h u hu hon v huv hv).skip (Or.inr (Bool.eq_false_iff.2 hnot))

/-- The descendants of a codec are what a descent meets. -/
theorem mem_descendants : v ∈ s.descendants f d start ↔ s.Met f d start v := by
  rw [descendants_eq_walk]
  refine ⟨fun hv => ?_, fun hv => ?_⟩
  · exact met_of_mem_walk (fun _ => .child) (fun _ h => absurd h List.not_mem_nil) hv
  · -- nothing is pending in the end, so what is due then has been found
    have hclosed : s.Pursued f d [] (s.walk f d (s.dag.childrenOf start) []) :=
      Pursued.walk fun _ h => absurd h List.not_mem_nil
    induction hv with
    | child hchild hmeets => exact Due.mem_walk (Or.inr ⟨hchild, hmeets⟩)
    | further _ hon huv hmeets ih =>
      have hdue := hclosed _ ih hon _ huv hmeets
      exact hdue.resolve_right fun hpending => List.not_mem_nil hpending.1

/-- A walk meets no codec twice. -/
theorem nodup_walk (hfound : found.Nodup) : (s.walk f d pending found).Nodup := by
  fun_induction walk s f d pending found with
  | case1 found => exact List.nodup_reverse.2 hfound
  | case2 found c rest _ ih => exact ih hfound
  | case3 found c rest hc _ _ ih => exact ih (List.nodup_cons.2 ⟨hc, hfound⟩)
  | case4 found c rest hc _ _ ih => exact ih (List.nodup_cons.2 ⟨hc, hfound⟩)
  | case5 found c rest _ _ ih => exact ih hfound

theorem nodup_descendants : (s.descendants f d start).Nodup := by
  rw [descendants_eq_walk]
  exact nodup_walk List.nodup_nil

/-- A walk depends on where it goes on, and on that only for codecs that it can come to. -/
theorem walk_congr {p : CodecId → Prop} (hclosed : ∀ u v, p u → Child s.dag.children u v → p v)
    (hon : ∀ u, p u → f.goesOn d u = f'.goesOn d u) (hpending : ∀ v ∈ pending, p v) :
    s.walk f d pending found = s.walk f' d pending found := by
  fun_induction walk s f d pending found with
  | case1 found => rw [walk]
  | case2 found c rest hc ih =>
    rw [ih fun v hv => hpending v (List.mem_cons_of_mem c hv), walk, dif_pos hc]
  | case3 found c rest hc hmeets hgo ih =>
    have hc' : p c := hpending c List.mem_cons_self
    rw [walk, dif_neg hc, if_pos hmeets, if_pos (hon c hc' ▸ hgo)]
    -- the children come from a codec that the walk can come to
    refine ih fun v hv => ?_
    rcases List.mem_append.1 hv with hv | hv
    · exact hclosed c v hc' hv
    · exact hpending v (List.mem_cons_of_mem c hv)
  | case4 found c rest hc hmeets hstop ih =>
    have hc' : p c := hpending c List.mem_cons_self
    rw [walk, dif_neg hc, if_pos hmeets, if_neg (hon c hc' ▸ hstop)]
    exact ih fun v hv => hpending v (List.mem_cons_of_mem c hv)
  | case5 found c rest hc hnot ih =>
    rw [walk, dif_neg hc, if_neg hnot]
    exact ih fun v hv => hpending v (List.mem_cons_of_mem c hv)

/-! ## Paths -/

/-- A path that goes one codec further goes there from the codec that it led to. -/
theorem isChain_concat {r : CodecId → CodecId → Prop} (mid : List CodecId) :
    (start :: (mid ++ [v])).IsChain r ↔
      (start :: mid).IsChain r ∧ r ((start :: mid).getLast (List.cons_ne_nil start mid)) v := by
  rw [← List.cons_append, List.isChain_append]
  simp [List.getLast?_eq_getLast_of_ne_nil (List.cons_ne_nil start mid)]

/-- A codec is met exactly if a path leads to it on which every codec behind the start is
    met and the descent goes on from all in between. -/
theorem met_iff_exists_path : s.Met f d start v ↔ ∃ inner : List CodecId,
    (start :: (inner ++ [v])).IsChain (Child s.dag.children) ∧ (∀ u ∈ inner, f.goesOn d u) ∧
      ∀ u ∈ inner ++ [v], s.meets d u := by
  constructor
  · intro hmet
    induction hmet with
    | child hchild hmeets => exact ⟨[], by simpa using hchild, by simp, by simpa using hmeets⟩
    | @further u v _ hon huv hmeets ih =>
      obtain ⟨inner, hchain, hgo, hall⟩ := ih
      refine ⟨inner ++ [u], ?_, ?_, ?_⟩
      · refine (isChain_concat (inner ++ [u])).2 ⟨hchain, ?_⟩
        simpa using huv
      · simpa [or_imp, forall_and] using ⟨hgo, hon⟩
      · intro w hw
        rcases List.mem_append.1 hw with hw | hw
        · exact hall w hw
        · obtain rfl := List.mem_singleton.1 hw
          exact hmeets
  · rintro ⟨inner, hchain, hgo, hall⟩
    induction inner using List.reverseRecOn generalizing v with
    | nil => exact .child (by simpa using hchain) (hall v (by simp))
    | append_singleton inner u ih =>
      -- the path up to the last codec in between meets that one, and goes on from it
      obtain ⟨hfront, hlast⟩ := (isChain_concat (inner ++ [u])).1 hchain
      have hu : s.Met f d start u := by
        refine ih hfront (fun w hw => hgo w (List.mem_append_left _ hw)) fun w hw => ?_
        exact hall w (List.mem_append_left _ hw)
      exact .further hu (hgo u (by simp)) (by simpa using hlast) (hall v (by simp))

/-! ## Descents of each manner -/

/-- A codec is below another one. -/
def Below (s : Scene) : CodecId → CodecId → Prop :=
  TransGen (Child s.dag.children)

theorem Met.below_start (h : s.Met f d start v) : s.Below start v := by
  induction h with
  | child huv _ => exact .single huv
  | further _ _ huv _ ih => exact .tail ih huv

/-- A descent without bounds meets all that is below. -/
theorem met_unbounded : s.Met f .unbounded start v ↔ s.Below start v := by
  refine ⟨Met.below_start, fun h => ?_⟩
  induction h with
  | single huv => exact .child huv rfl
  | tail _ huv ih => exact .further ih rfl huv rfl

/-- Below a codec, a descent that stops at collapsed codecs gets to every codec or to a
    collapsed one before it. -/
theorem Below.met_or_stop (h : s.Below start v) : s.Met f .stopAtCollapsed start v ∨
    ∃ u, s.Met f .stopAtCollapsed start u ∧ f.codecCollapsed u := by
  induction h with
  | single huv => exact Or.inl (.child huv rfl)
  | @tail u v _ huv ih =>
    rcases ih with hu | hstop
    · cases hcollapsed : f.codecCollapsed u with
      | true => exact Or.inr ⟨u, hu, hcollapsed⟩
      | false => exact Or.inl (.further hu (by simp [Folding.goesOn, hcollapsed]) huv rfl)
    · exact Or.inr hstop

/-- What is met depends on nothing but the collapses below the start. -/
theorem Met.congr (h : ∀ u, s.Below start u → f.codecCollapsed u = f'.codecCollapsed u)
    (hv : s.Met f d start v) : s.Met f' d start v := by
  have hon : ∀ u, s.Below start u → f'.goesOn d u = f.goesOn d u := by
    intro u hu
    cases d <;> simp [Folding.goesOn, h u hu]
  induction hv with
  | child huv hmeets => exact .child huv hmeets
  | further hu hgo huv hmeets ih =>
    refine .further ih ?_ huv hmeets
    rwa [hon _ hu.below_start]

/-- Nor does what is found, and in which order, depend on anything else. -/
theorem descendants_congr (h : ∀ u, s.Below start u → f.codecCollapsed u = f'.codecCollapsed u) :
    s.descendants f d start = s.descendants f' d start := by
  have hfirst : ∀ v, Child s.dag.children start v → s.Below start v := fun _ => .single
  have hfurther : ∀ u v, s.Below start u → Child s.dag.children u v → s.Below start v :=
    fun _ _ => .tail
  rw [descendants_eq_walk, descendants_eq_walk]
  refine walk_congr hfurther (fun u hu => ?_) hfirst
  cases d <;> simp [Folding.goesOn, h u hu]

end TraceFold.Scene
