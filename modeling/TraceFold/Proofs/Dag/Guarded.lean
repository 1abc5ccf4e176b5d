/-
  TraceFold.Proofs.Dag.Guarded

  The loop that puts codecs in order, with every access guarded.  The guarded loop gives
  nothing as soon as a codec without a place in the table is counted, looked up or
  lowered, a degree of zero is lowered, or the steps run out before the queue is empty.
  If all children are codecs of the table, none of this ever happens: the guarded loop
  always gives what the loop itself gives (`ofChildren?_eq_some`).
-/

import TraceFold.Proofs.Dag.Order

namespace TraceFold.Dag

variable {children : Array (List CodecId)}

/-! ## The guarded loop -/

/-- Raises the degree of a codec that has one. -/
def raise? (degrees : Array Nat) (c : CodecId) : Option (Array Nat) :=
  if c.index < degrees.size then some (degrees.modify c.index (· + 1)) else none

/-- Lowers the degree of a codec that has one above zero. -/
def lower? (degrees : Array Nat) (c : CodecId) : Option (Array Nat) :=
  if degrees[c.index]?.any (0 < ·) then some (degrees.modify c.index (· - 1)) else none

def inDegrees? (children : Array (List CodecId)) : Option (Array Nat) :=
  children.toList.flatten.foldlM raise? (Array.replicate children.size 0)

def release? (degrees : Array Nat) : List CodecId → Option (Array Nat × List CodecId)
  | [] => some (degrees, [])
  | c :: rest => do
    let lowered ← lower? degrees c
    let (degrees, free) ← release? lowered rest
    some (degrees, if lowered[c.index]? = some 0 then c :: free else free)

def drain? (children : Array (List CodecId)) :
    Nat → Array Nat → List CodecId → Option (List CodecId × Array Nat)
  | _, degrees, [] => some ([], degrees)
  -- a queue that is not empty yet must not be left behind
  | 0, _, _ :: _ => none
  | steps + 1, degrees, c :: queue => do
    let mine ← children[c.index]?
    let (degrees, free) ← release? degrees mine
    let (order, left) ← drain? children steps degrees (queue ++ free)
    some (c :: order, left)

/-- Enters the places of codecs that all have an entry. -/
def enterPlaces? (places : Array Nat) (i : Nat) : List CodecId → Option (Array Nat)
  | [] => some places
  | c :: rest =>
    if c.index < places.size then enterPlaces? (places.setIfInBounds c.index i) (i + 1) rest
    else none

/-- The guarded loop over a whole table, which enters the places in the order as well. -/
def ofChildren? (children : Array (List CodecId)) : Option (Except (List CodecId) Dag) := do
  let degrees ← inDegrees? children
  let (order, left) ← drain? children children.size degrees (codecsWhere degrees (· == 0))
  if order.length = children.size then
    let places ← enterPlaces? (Array.replicate children.size 0) 0 order
    some (.ok { children, order, places })
  else some (.error (codecsWhere left (0 < ·)))

/-! ## No guard ever fails -/

theorem foldlM_raise? (cs : List CodecId) (degrees : Array Nat)
    (hknown : ∀ c ∈ cs, c.index < degrees.size) :
    cs.foldlM raise? degrees
      = some (cs.foldl (fun degrees c => degrees.modify c.index (· + 1)) degrees) := by
  induction cs generalizing degrees with
  | nil => rfl
  | cons c cs ih =>
      have hc : raise? degrees c = some (degrees.modify c.index (· + 1)) :=
        if_pos (hknown c List.mem_cons_self)
      rw [List.foldlM_cons, hc, List.foldl_cons]
      refine ih _ fun c' hc' => ?_
      rw [Array.size_modify]
      exact hknown c' (List.mem_cons_of_mem c hc')

/-- Every child that is counted has a place in the table. -/
theorem inDegrees?_eq_some (hknown : ∀ u v, Child children u v → v.index < children.size) :
    inDegrees? children = some (inDegrees children) := by
  refine foldlM_raise? _ _ fun c hc => ?_
  obtain ⟨cs, hcs, hmem⟩ := List.mem_flatten.1 hc
  obtain ⟨i, hi⟩ := List.mem_iff_getElem?.1 hcs
  rw [Array.size_replicate]
  refine hknown ⟨i⟩ c ?_
  have hrow : childrenIn children ⟨i⟩ = cs := by
    rw [Array.getElem?_toList] at hi
    simp [childrenIn, hi]
  rw [Child, hrow]
  exact hmem

/-- Degrees that a list of children fits into are never lowered below zero. -/
theorem Covers.lower? {degrees : Array Nat} {c : CodecId} {cs : List CodecId}
    (h : Covers degrees (c :: cs)) (hc : c.index < degrees.size) :
    lower? degrees c = some (degrees.modify c.index (· - 1)) := by
  have hd : degrees[c.index]? = some degrees[c.index] := Array.getElem?_eq_getElem hc
  have hle := h c _ hd
  rw [List.count_cons_self] at hle
  refine if_pos ?_
  simp only [hd, Option.any_some, decide_eq_true_eq]
  omega

/-- Every degree that is lowered is above zero. -/
theorem Covers.release?_eq_some {degrees : Array Nat} {cs : List CodecId}
    (h : Covers degrees cs) (hknown : ∀ c ∈ cs, c.index < degrees.size) :
    release? degrees cs = some (release degrees cs) := by
  induction cs generalizing degrees with
  | nil => rfl
  | cons c cs ih =>
      have hrest : release? (degrees.modify c.index (· - 1)) cs
          = some (release (degrees.modify c.index (· - 1)) cs) := by
        refine ih h.lowered fun c' hc' => ?_
        rw [Array.size_modify]
        exact hknown c' (List.mem_cons_of_mem c hc')
      rw [release?, h.lower? (hknown c List.mem_cons_self)]
      simp only [Option.bind_eq_bind, Option.bind_some, hrest]
      rfl

/-- What holds of the frontier lets every guard pass, and enough steps empty the queue. -/
theorem Frontier.drain?_eq_some (hknown : ∀ u v, Child children u v → v.index < children.size)
    {taken queue : List CodecId} {degrees : Array Nat} {steps : Nat}
    (h : Frontier children taken degrees queue) (hsteps : children.size ≤ steps + taken.length) :
    drain? children steps degrees queue = some (Dag.drain children steps degrees queue) := by
  induction steps generalizing taken degrees queue with
  | zero =>
      obtain rfl := h.queue_eq_nil (by omega)
      rfl
  | succ steps ih =>
      cases queue with
      | nil => rfl
      | cons c queue =>
          have hc : c.index < children.size :=
            h.lt_size c (List.mem_append_right _ List.mem_cons_self)
          -- the three guards of a turn: the row is there, its codecs are, and no degree is zero
          have hrow : children[c.index]? = some (childrenIn children c) := by
            simp [childrenIn, hc]
          have hfree : release? degrees (childrenIn children c)
              = some (release degrees (childrenIn children c)) :=
            h.covers.release?_eq_some fun v hv => h.size_eq ▸ hknown c v hv
          have hrun := ih h.step (by
            simp only [List.length_append, List.length_singleton]
            omega)
          simp only [drain?, hrow, Option.bind_eq_bind, Option.bind_some, hfree, hrun]
          rfl

/-- Every codec whose place is entered has a place in the table. -/
theorem enterPlaces?_eq_some {places : Array Nat} {i : Nat} {order : List CodecId}
    (hknown : ∀ c ∈ order, c.index < places.size) :
    enterPlaces? places i order = some (enterPlaces places i order) := by
  induction order generalizing places i with
  | nil => rfl
  | cons c rest ih =>
      rw [enterPlaces?, if_pos (hknown c List.mem_cons_self), enterPlaces]
      refine ih fun c' hc' => ?_
      rw [Array.size_setIfInBounds]
      exact hknown c' (List.mem_cons_of_mem c hc')

/-- While all children are codecs of the table, no codec outside of it is touched, no
    degree is lowered below zero, and the queue is emptied. -/
theorem ofChildren?_eq_some (hknown : ∀ u v, Child children u v → v.index < children.size) :
    ofChildren? children = some (ofChildren children) := by
  have henough : children.size ≤ children.size + ([] : List CodecId).length := Nat.le_add_right _ _
  have hdrain := frontier_start.drain?_eq_some hknown henough
  obtain ⟨hend, -⟩ := frontier_end children
  have hplaces : enterPlaces? (Array.replicate children.size 0) 0 (drain children children.size
      (inDegrees children) (codecsWhere (inDegrees children) (· == 0))).1
      = some (placesOf children.size (drain children children.size
        (inDegrees children) (codecsWhere (inDegrees children) (· == 0))).1) := by
    refine enterPlaces?_eq_some fun c hc => ?_
    rw [Array.size_replicate]
    exact hend.taken_lt_size c hc
  simp only [ofChildren?, inDegrees?_eq_some hknown, Option.bind_eq_bind, Option.bind_some, hdrain,
    hplaces, ofChildren]
  split <;> rfl

end TraceFold.Dag
