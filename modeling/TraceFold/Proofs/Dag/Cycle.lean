/-
  TraceFold.Proofs.Dag.Cycle

  What comes of putting codecs in order, whatever table of children they have.  Without a
  cycle there is an order, in which every codec comes behind all that feed it.  With one,
  the codecs that are named are those on a cycle and those that codecs on a cycle feed,
  directly or through others: a codec that is left when the queue is empty is fed by one
  that is left, and back from there one must get to a cycle (`Frontier.not_mem_iff`).
-/

import TraceFold.Proofs.Dag.Guarded
import TraceFold.Proofs.Lists

namespace TraceFold.Dag

open Relation (ReflTransGen TransGen)

variable {children : Array (List CodecId)} {order : List CodecId} {degrees : Array Nat}
  {u v c : CodecId}

/-! ## The codecs that are left -/

/-- A codec is on a cycle, or fed by one that is. -/
def Entangled (children : Array (List CodecId)) (c : CodecId) : Prop :=
  ∃ u, TransGen (Child children) u u ∧ ReflTransGen (Child children) u c

theorem Entangled.index_lt (hknown : ∀ u v, Child children u v → v.index < children.size)
    (h : Entangled children c) : c.index < children.size := by
  obtain ⟨u, hcycle, hreach⟩ := h
  obtain ⟨w, -, hw⟩ := TransGen.tail'_iff.1 (hcycle.trans_left hreach)
  exact hknown w c hw

/-- Whatever feeds a codec that is taken is taken before it. -/
theorem Frontier.before_of_transGen (h : Frontier children order degrees [])
    (hready : Ready children [] order) (huv : TransGen (Child children) u v) (hv : v ∈ order) :
    u ∈ order ∧ order.idxOf u < order.idxOf v := by
  have hstep : ∀ {a b : CodecId}, Child children a b → b ∈ order →
      a ∈ order ∧ order.idxOf a < order.idxOf b := fun {a b} hab hb =>
    ⟨h.closed b hb a hab,
      (hready.before (by simpa using h.nodup_taken) hb hab).resolve_left List.not_mem_nil⟩
  induction huv with
  | single huv => exact hstep huv hv
  | tail _ hwv ih =>
      obtain ⟨hw, hlt⟩ := hstep hwv hv
      obtain ⟨hu, hlt'⟩ := ih hw
      exact ⟨hu, hlt'.trans hlt⟩

/-- Once the queue is empty, the codecs that are left are those on a cycle and those that
    they feed. -/
theorem Frontier.not_mem_iff (h : Frontier children order degrees [])
    (hready : Ready children [] order) (hc : c.index < children.size) :
    c ∉ order ↔ Entangled children c := by
  constructor
  · intro hleft
    by_contra hfree
    -- no codec that is left and leads to this one is on a cycle, so one of them is not fed
    -- by another one
    have hacyclic : ∀ x, (x.index < children.size ∧ x ∉ order ∧ ReflTransGen (Child children) x c) →
        ¬TransGen (Child children) x x := fun x hx hcycle => hfree ⟨x, hcycle, hx.2.2⟩
    obtain ⟨x, ⟨hx, hxleft, hreach⟩, hunfed⟩ :=
      exists_without_feeder hacyclic (fun _ => And.left) ⟨c, hc, hleft, .refl⟩
    obtain ⟨w, hwx, hw⟩ := h.exists_feeder_left hx hxleft
    exact hunfed w hwx ⟨index_lt_of_mem_childrenIn hwx, hw, .head hwx hreach⟩
  · rintro ⟨u, hcycle, hreach⟩ hmem
    -- a codec on a cycle would have to be taken before itself
    have htaken : u ∈ order := by
      rcases Relation.reflTransGen_iff_eq_or_transGen.1 hreach with rfl | huc
      · exact hmem
      · exact (h.before_of_transGen hready huc hmem).1
    exact Nat.lt_irrefl _ (h.before_of_transGen hready hcycle htaken).2

/-- The codecs that keep a degree are those that are left. -/
theorem Frontier.degree_pos_iff (h : Frontier children order degrees []) :
    (∃ d, degrees[c.index]? = some d ∧ 0 < d) ↔ c.index < children.size ∧ c ∉ order := by
  constructor
  · rintro ⟨d, hd, hpos⟩
    refine ⟨h.size_eq ▸ (Array.getElem?_eq_some_iff.1 hd).1, fun hmem => ?_⟩
    have hall := (feeding_eq_iff h.nodup_taken h.taken_lt_size c).2 (h.closed c hmem)
    have hdegree := h.degree c d hd
    omega
  · rintro ⟨hc, hleft⟩
    have hlt : c.index < degrees.size := h.size_eq ▸ hc
    have hd : degrees[c.index]? = some degrees[c.index] := Array.getElem?_eq_getElem hlt
    refine ⟨_, hd, Nat.pos_of_ne_zero fun hzero => ?_⟩
    rw [hzero] at hd
    exact absurd ((h.mem_queue c hleft).2 hd) List.not_mem_nil

theorem pairwise_codecsWhere (degrees : Array Nat) (test : Nat → Bool) :
    (codecsWhere degrees test).Pairwise fun a b => a.index < b.index :=
  (List.pairwise_lt_range.filter _).map CodecId.mk fun _ _ hlt => hlt

/-! ## Orders and cycles -/

/-- An order of all codecs of a table in which every codec comes behind those that feed
    it, and a table of the places in it. -/
structure Orders (children : Array (List CodecId)) (d : Dag) : Prop where
  children_eq : d.children = children
  perm : d.order.Perm (codecsOf children)
  before : ∀ u v, Child children u v → d.order.idxOf u < d.order.idxOf v
  position?_eq : ∀ i c, d.position? c = some i ↔ d.order[i]? = some c
  reverseOrder_eq : d.reverseOrder = d.order.reverse
  reverse_before : ∀ u v, Child children u v → d.reverseOrder.idxOf v < d.reverseOrder.idxOf u

/-- The codecs of a table that cannot be put in order, in ascending order. -/
structure Names (children : Array (List CodecId)) (unresolved : List CodecId) : Prop where
  ascending : unresolved.Pairwise fun a b => a.index < b.index
  mem_iff : ∀ c, c ∈ unresolved ↔ Entangled children c

/-- An order of the codecs, with the table of its places, has all that is asked of it. -/
theorem Sorted.orders {d : Dag} (h : Sorted children d.order) (hchildren : d.children = children)
    (hplaces : d.places = placesOf children.size d.order)
    (hknown : ∀ u v, Child children u v → v.index < children.size) : Orders children d where
  children_eq := hchildren
  perm := (List.perm_ext_iff_of_nodup h.nodup nodup_codecsOf).2 fun c => by
    rw [h.mem_iff, mem_codecsOf]
  before := h.before
  position?_eq i c := by
    rw [position?, hplaces, h.getElem?_placesOf_iff]
  reverseOrder_eq := rfl
  reverse_before u v huv := by
    have hu : u ∈ d.order := (h.mem_iff u).2 (index_lt_of_mem_childrenIn huv)
    have hv : v ∈ d.order := (h.mem_iff v).2 (hknown u v huv)
    have hlt := h.before u v huv
    have hlast := List.idxOf_lt_length_of_mem hv
    rw [reverseOrder, idxOf_reverse h.nodup hu, idxOf_reverse h.nodup hv]
    omega

/-- The codecs that are named are those that a cycle holds up. -/
theorem names_of_error (hknown : ∀ u v, Child children u v → v.index < children.size)
    {unresolved : List CodecId} (h : ofChildren children = .error unresolved) :
    Names children unresolved := by
  obtain ⟨hend, hready⟩ := frontier_end children
  simp only [ofChildren] at h
  split at h
  · cases h
  · obtain rfl := Except.error.inj h
    refine ⟨pairwise_codecsWhere _ _, fun c => ?_⟩
    rw [mem_codecsWhere]
    simp only [decide_eq_true_eq, hend.degree_pos_iff]
    constructor
    · rintro ⟨hc, hleft⟩
      exact (hend.not_mem_iff hready hc).1 hleft
    · intro htangled
      have hc := htangled.index_lt hknown
      exact ⟨hc, (hend.not_mem_iff hready hc).2 htangled⟩

theorem Child.exists_row (h : Child children u v) : ∃ cs ∈ children, v ∈ cs := by
  have hlt : u.index < children.size := index_lt_of_mem_childrenIn h
  have hu : children[u.index]? = some children[u.index] := Array.getElem?_eq_getElem hlt
  rw [Child, childrenIn, hu] at h
  exact ⟨children[u.index], Array.getElem_mem hlt, h⟩

/-- Whatever children the codecs of a table have, if they are codecs of the table: no step
    touches a codec outside of it or lowers a degree below zero.  An order is found exactly
    if no codec feeds itself through others, and otherwise the codecs are named that are on
    a cycle or fed by one. -/
theorem ofChildren_decides (hrows : ∀ cs ∈ children, ∀ c ∈ cs, c.index < children.size) :
    ofChildren? children = some (ofChildren children) ∧
      ((∃ d, ofChildren children = .ok d) ↔ ∀ c, ¬TransGen (Child children) c c) ∧
      (∀ d, ofChildren children = .ok d → Orders children d) ∧
      ∀ unresolved, ofChildren children = .error unresolved → Names children unresolved := by
  have hknown : ∀ u v, Child children u v → v.index < children.size := by
    intro u v huv
    obtain ⟨cs, hcs, hv⟩ := huv.exists_row
    exact hrows cs hcs v hv
  refine ⟨ofChildren?_eq_some hknown, exists_ofChildren_iff, fun d hd => ?_, fun unresolved h => ?_⟩
  · obtain ⟨hchildren, hsorted, hplaces⟩ := ofChildren_eq_ok hd
    exact hsorted.orders hchildren hplaces hknown
  · exact names_of_error hknown h

/-- Four codecs, of which the second and the third feed each other.  The first one lists the
    second twice, and the last one is behind the cycle. -/
def tangle : Array (List CodecId) :=
  #[[⟨1⟩, ⟨1⟩], [⟨2⟩], [⟨1⟩, ⟨3⟩], []]

/-- The codecs of the cycle are named, and the one behind it. -/
theorem ofChildren_decides_tangle : (∀ cs ∈ tangle, ∀ c ∈ cs, c.index < tangle.size) ∧
    ofChildren? tangle = some (.error [⟨1⟩, ⟨2⟩, ⟨3⟩]) ∧ Names tangle [⟨1⟩, ⟨2⟩, ⟨3⟩] := by
  have hrows : ∀ cs ∈ tangle, ∀ c ∈ cs, c.index < tangle.size := by decide
  have hresult : ofChildren tangle = .error [⟨1⟩, ⟨2⟩, ⟨3⟩] := rfl
  obtain ⟨hguarded, -, -, hnames⟩ := ofChildren_decides hrows
  exact ⟨hrows, hresult ▸ hguarded, hnames _ hresult⟩

end TraceFold.Dag
