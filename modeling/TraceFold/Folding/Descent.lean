/-
  TraceFold.Folding.Descent

  Descents from a codec.  A descent goes depth first, tries the children of a codec in
  their order and meets no codec twice.  Its manner says which children it meets and which
  of them it goes on from.  It keeps a stack of the codecs whose children it is trying,
  each with the number of the child that comes next (`Frame`), so it needs no recursion
  into the depth.
-/

import TraceFold.Folding.Basic

namespace TraceFold

/-- The manner of a descent. -/
inductive Descent where
  /-- Meet every descendant. -/
  | unbounded
  /-- Meet collapsed codecs, but do not go on from them. -/
  | stopAtCollapsed
  /-- The same, meeting only codecs that one graph owns. -/
  | within (graph : GraphId)
  deriving DecidableEq, Repr

namespace Scene

/-- Whether a descent meets a codec. -/
def meets (s : Scene) : Descent → CodecId → Bool
  | .unbounded, _ => true
  | .stopAtCollapsed, _ => true
  | .within g, c => s.pipeline.owner? c == some g

end Scene

namespace Folding

/-- Whether a descent goes on from a codec that it has met. -/
def goesOn (f : Folding) : Descent → CodecId → Bool
  | .unbounded, _ => true
  | .stopAtCollapsed, c => !f.codecCollapsed c
  | .within _, c => !f.codecCollapsed c

end Folding

/-! ## What is left to walk -/

namespace Dag

/-- How many children a codec has, none if it has been found. -/
def unfoundAt (d : Dag) (found : List CodecId) (i : Nat) : Nat :=
  if found.contains ⟨i⟩ then 0 else (d.childrenOf ⟨i⟩).length

/-- How many children the codecs have that have not been found. -/
def unfound (d : Dag) (found : List CodecId) : Nat :=
  (List.range d.children.size).foldr (fun i left => d.unfoundAt found i + left) 0

theorem foldr_unfoundAt_cons (d : Dag) (found : List CodecId) (c : CodecId) (hc : c ∉ found)
    (is : List Nat) (his : is.Nodup) :
    is.foldr (fun i left => d.unfoundAt (c :: found) i + left) 0
        + (if c.index ∈ is then (d.childrenOf c).length else 0)
      = is.foldr (fun i left => d.unfoundAt found i + left) 0 := by
  obtain ⟨k⟩ := c
  induction is with
  | nil => simp
  | cons i is ih =>
    have ih := ih his.of_cons
    have hi : i ∉ is := (List.nodup_cons.1 his).1
    by_cases hk : k = i
    · -- the codec is counted here, and nowhere else in the list
      subst hk
      simp [unfoundAt, hc, hi] at ih ⊢
      omega
    · have hne : i ≠ k := Ne.symm hk
      simp [unfoundAt, hk, hne] at ih ⊢
      omega

/-- Finding a codec takes its children off the count. -/
theorem unfound_cons (d : Dag) {found : List CodecId} {c : CodecId} (hc : c ∉ found) :
    d.unfound (c :: found) + (d.childrenOf c).length = d.unfound found := by
  have h := d.foldr_unfoundAt_cons found c hc (List.range d.children.size) List.nodup_range
  by_cases hi : c.index < d.children.size
  · simpa [unfound, hi] using h
  · have : d.childrenOf c = [] := by simp [childrenOf, childrenIn, hi]
    simpa [unfound, hi, this] using h

end Dag

/-! ## The descent -/

/-- A codec whose children a descent is trying, and the number of the next one. -/
structure Frame where
  codec : CodecId
  next : Nat := 0
  deriving DecidableEq, Repr

/-- The children that a frame has left to try. -/
def Dag.leftIn (d : Dag) (frame : Frame) : List CodecId :=
  (d.childrenOf frame.codec).drop frame.next

/-- What a stack of frames has left to try, in the order in which it comes. -/
def Dag.leftOn (d : Dag) (stack : List Frame) : List CodecId :=
  stack.flatMap d.leftIn

theorem Dag.leftOn_cons (d : Dag) (frame : Frame) (stack : List Frame) :
    d.leftOn (frame :: stack) = d.leftIn frame ++ d.leftOn stack :=
  List.flatMap_cons

/-- A frame that has no next child has nothing left. -/
theorem Dag.leftIn_of_none {d : Dag} {frame : Frame}
    (h : (d.childrenOf frame.codec)[frame.next]? = none) : d.leftIn frame = [] :=
  List.drop_eq_nil_of_le (List.getElem?_eq_none_iff.1 h)

/-- A frame that has a next child has that one left, and what is left behind it. -/
theorem Dag.leftIn_of_some {d : Dag} {frame : Frame} {c : CodecId}
    (h : (d.childrenOf frame.codec)[frame.next]? = some c) :
    d.leftIn frame = c :: d.leftIn { frame with next := frame.next + 1 } := by
  obtain ⟨hlt, hget⟩ := List.getElem?_eq_some_iff.1 h
  rw [leftIn, List.drop_eq_getElem_cons hlt, hget]
  rfl

namespace Scene

/-- What a descent meets that has the frames of `stack` open, the innermost first; `found` is
    what it has met before, latest first. -/
def descend (s : Scene) (f : Folding) (d : Descent) (stack : List Frame) (found : List CodecId) :
    List CodecId :=
  match stack with
  | [] => found.reverse
  | frame :: outer =>
    match _hnext : (s.dag.childrenOf frame.codec)[frame.next]? with
    | none => s.descend f d outer found
    | some c =>
      let advanced := { frame with next := frame.next + 1 } :: outer
      if _hnew : s.meets d c ∧ c ∉ found then
        -- a frame on top of the others makes the descent go depth first
        if f.goesOn d c then s.descend f d ({ codec := c } :: advanced) (c :: found)
        else s.descend f d advanced (c :: found)
      else s.descend f d advanced found
-- a child counts twice, so that one that is tried makes up for the frame that it opens
termination_by 2 * ((s.dag.leftOn stack).length + s.dag.unfound found) + stack.length
decreasing_by
  · simp only [Dag.leftOn_cons, Dag.leftIn_of_none _hnext, List.length_cons, List.nil_append]
    omega
  · have hleft := s.dag.unfound_cons _hnew.2
    have hopened : s.dag.leftIn { codec := c } = s.dag.childrenOf c := rfl
    simp only [Dag.leftOn_cons, Dag.leftIn_of_some _hnext, hopened, List.length_append,
      List.length_cons]
    omega
  · have hleft := s.dag.unfound_cons _hnew.2
    simp only [Dag.leftOn_cons, Dag.leftIn_of_some _hnext, List.length_append,
      List.length_cons]
    omega
  · simp only [Dag.leftOn_cons, Dag.leftIn_of_some _hnext, List.length_append,
      List.length_cons]
    omega

/-- The codecs that a descent from a codec meets, in the order in which it does. -/
def descendants (s : Scene) (f : Folding) (d : Descent) (start : CodecId) : List CodecId :=
  s.descend f d [{ codec := start }] []

end Scene

end TraceFold
