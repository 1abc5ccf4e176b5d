/-
  TraceFold.Proofs.View.RoundTrip

  A view is read back from the text in which it is handed out.  The members of a record
  are its slots with the empty ones left out, and an empty slot is what an absent field
  is read from.  A node is a record behind one more member that says what it is; no field
  of a node has that member's name.  What is lost is a number too long for its field.
-/

import TraceFold.CommandLine.Report
import TraceFold.Proofs.Json.Record
import TraceFold.Proofs.Json.RoundTrip

namespace TraceFold

open Json (Slots)

/-! ## Codecs -/

namespace CodecView

/-- The numbers of a codec fit into the fields that hold them. -/
def InRange (v : CodecView) : Prop :=
  v.typeId < 2 ^ 32 ∧ v.headerSize < 2 ^ 64

/-- The slots of a codec, in the order of the fields. -/
def slots (v : CodecView) : Slots :=
  [("id", some (.ofString v.id)), ("name", some (.ofString v.name)),
    ("kind", some (.ofString v.kind)), ("type_id", some (.ofNat v.typeId)),
    ("header_size", some (.ofNat v.headerSize)), ("header", some (.ofString v.header)),
    ("detail", some (.ofString v.detail)), ("failure_message", v.failure.map .ofString),
    ("owning_graph", v.owner.map .ofString), ("in_progress", some (.bool v.inProgress)),
    ("store", some (.bool v.isStore)), ("has_local_params", some (.bool v.hasParams)),
    ("visible", some (.bool v.visible)), ("collapsed", some (.bool v.collapsed)),
    ("collapsible", some (.bool v.collapsible)),
    ("expandable_one_level", some (.bool v.expandable)),
    ("in_largest_path", some (.bool v.marked))]

theorem names_slots (v : CodecView) : v.slots.map Prod.fst = fields.map Json.Field.name := rfl

/-- A codec is written as its slots, without those that are empty. -/
theorem members_eq (v : CodecView) : v.members = v.slots.members := by
  unfold members slots
  cases v.failure <;> cases v.owner <;> rfl

/-- A codec is read back exactly if its numbers fit into their fields. -/
theorem ofJson?_members (v : CodecView) : ofJson? (.ofMembers v.members) = some v ↔ v.InRange := by
  have hslots : Json.slots? fields (.ofMembers v.members) = some v.slots :=
    v.members_eq ▸ Json.slots?_members (by decide) v.names_slots
  have hfailure : v.slots.orElse "failure_message" (Json.option? Json.text?) none
      = some v.failure :=
    Slots.orElse_option .ofString rfl fun _ _ => rfl
  have howner : v.slots.orElse "owning_graph" (Json.option? Json.text?) none = some v.owner :=
    Slots.orElse_option .ofString rfl fun _ _ => rfl
  have htype : v.slots.required "type_id" (Json.word? 32) = _ := Json.word?_ofNat 32 v.typeId
  have hsize : v.slots.required "header_size" (Json.word? 64) = _ :=
    Json.word?_ofNat 64 v.headerSize
  rw [ofJson?, hslots, Option.bind_eq_bind, Option.bind_some, htype, hsize, hfailure, howner]
  -- no field but the two numbers can be refused
  by_cases htype : v.typeId < 2 ^ 32
  · rw [if_pos htype]
    by_cases hsize : v.headerSize < 2 ^ 64
    · rw [if_pos hsize]
      exact iff_of_true rfl ⟨htype, hsize⟩
    · rw [if_neg hsize]
      exact iff_of_false nofun fun h => hsize h.2
  · rw [if_neg htype]
    exact iff_of_false nofun fun h => htype h.1

/-- No member of a codec is nested too deep for the reader. -/
theorem isReadable_slots {v : CodecView} (h : v.InRange) {m : String × Json}
    (hm : m ∈ v.slots.members) : m.2.isReadable 124 := by
  have htype : v.typeId < 2 ^ 64 := Nat.lt_trans h.1 (by decide)
  have hall : ∀ slot ∈ v.slots, ∀ j ∈ slot.2, j.isReadable 124 := by
    simp [slots, Json.isReadable_ofNat htype, Json.isReadable_ofNat h.2, Json.ofString,
      Json.isReadable]
  exact hall _ (Slots.mem_members.1 hm) _ rfl

end CodecView

/-! ## Function graphs -/

namespace GraphView

/-- The slots of a function graph, in the order of the fields. -/
def slots (v : GraphView) : Slots :=
  [("id", some (.ofString v.id)), ("name", some (.ofString v.name)),
    ("graph_type", some (.ofString v.kind)), ("header", some (.ofString v.header)),
    ("detail", some (.ofString v.detail)), ("failure_message", v.failure.map .ofString),
    ("codec_ids", some (.ofList .ofString v.codecs)),
    ("has_local_params", some (.bool v.hasParams)), ("visible", some (.bool v.visible)),
    ("collapsed", some (.bool v.collapsed)), ("in_largest_path", some (.bool v.marked))]

theorem names_slots (v : GraphView) : v.slots.map Prod.fst = fields.map Json.Field.name := rfl

theorem members_eq (v : GraphView) : v.members = v.slots.members := by
  unfold members slots
  cases v.failure <;> rfl

/-- A graph is always read back, as it has no numbers. -/
theorem ofJson?_members (v : GraphView) : ofJson? (.ofMembers v.members) = some v := by
  have hslots : Json.slots? fields (.ofMembers v.members) = some v.slots :=
    v.members_eq ▸ Json.slots?_members (by decide) v.names_slots
  have hfailure : v.slots.orElse "failure_message" (Json.option? Json.text?) none
      = some v.failure :=
    Slots.orElse_option .ofString rfl fun _ _ => rfl
  have hcodecs : v.slots.required "codec_ids" (Json.list? Json.text?) = some v.codecs :=
    Json.list?_ofList Json.text?_ofString v.codecs
  rw [ofJson?, hslots, Option.bind_eq_bind, Option.bind_some, hfailure, hcodecs]
  rfl

theorem isReadable_slots {v : GraphView} {m : String × Json} (hm : m ∈ v.slots.members) :
    m.2.isReadable 124 := by
  have hcodecs : (Json.ofList .ofString v.codecs).isReadable 124 :=
    (Json.isReadable_ofList v.codecs).2 fun _ _ => rfl
  have hall : ∀ slot ∈ v.slots, ∀ j ∈ slot.2, j.isReadable 124 := by
    simp [slots, hcodecs, Json.ofString, Json.isReadable]
  exact hall _ (Slots.mem_members.1 hm) _ rfl

end GraphView

/-! ## Nodes -/

namespace NodeView

/-- The numbers of a node fit into the fields that hold them. -/
def InRange : NodeView → Prop
  | .codec v => v.InRange
  | .graph _ => True

/-- A record without a member of the tag's name is found again behind its tag. -/
theorem ofJson?_tagged (tag : Json) {ms : List (String × Json)} (hms : ∀ m ∈ ms, m.1 ≠ tagName) :
    ofJson? (.ofMembers ((tagName, tag) :: ms)) =
      if (Json.ofMembers ((tagName, tag) :: ms)).isReadable maxDepth
      then ofTag? tag (.ofMembers ms) else none := by
  have hnone : (ms.map fun m => (some m.1, m.2)).filter
      (fun m : Option String × Json => m.1 == some tagName) = [] := by
    rw [List.filter_map, List.map_eq_nil_iff, List.filter_eq_nil_iff]
    simpa using hms
  have hall : (ms.map fun m => (some m.1, m.2)).filter
      (fun m : Option String × Json => m.1 != some tagName) = ms.map fun m => (some m.1, m.2) := by
    rw [List.filter_map, List.filter_eq_self.2 (by simpa using hms)]
  simp only [ofJson?, Json.ofMembers, List.map_cons] at hnone hall ⊢
  cases (Json.object _).isReadable maxDepth <;> simp [hnone, hall]

/-- No slot has the tag's name. -/
theorem ne_tagName {fields : List Json.Field} {slots : Slots}
    (hnames : slots.map Prod.fst = fields.map Json.Field.name)
    (htag : tagName ∉ fields.map Json.Field.name) :
    ∀ m ∈ slots.members, m.1 ≠ tagName := by
  intro m hm heq
  refine htag (hnames ▸ heq ▸ ?_)
  exact List.mem_map_of_mem (f := Prod.fst) (Slots.mem_members.1 hm)

/-- A node is nested no deeper for the tag that tells its kind. -/
theorem isReadable_tagged {tag : String} {ms : List (String × Json)}
    (hms : ∀ m ∈ ms, m.2.isReadable 124) :
    (Json.ofMembers ((tagName, .ofString tag) :: ms)).isReadable maxDepth := by
  refine Json.isReadable_ofMembers.2 fun m hm => ?_
  rcases List.mem_cons.1 hm with rfl | hm
  · rfl
  · exact hms m hm

/-- A node is read back as what its tag says, exactly if its numbers fit into their fields. -/
theorem ofJson?_toJson (n : NodeView) : ofJson? n.toJson = some n ↔ n.InRange := by
  cases n with
  | codec v =>
    have hnames : ∀ m ∈ v.members, m.1 ≠ tagName :=
      v.members_eq ▸ ne_tagName v.names_slots (by decide)
    have hcodec : ofTag? (.ofString "codec") (.ofMembers v.members) = some (.codec v) ↔
        v.InRange := by
      rw [← v.ofJson?_members]
      simp [ofTag?, Json.text?_ofString]
    rw [toJson, ofJson?_tagged _ hnames, InRange]
    constructor
    · intro h
      split at h
      · exact hcodec.1 h
      · cases h
    · intro h
      have hread : ∀ m ∈ v.members, m.2.isReadable 124 := fun m hm =>
        CodecView.isReadable_slots h (v.members_eq ▸ hm)
      rw [if_pos (isReadable_tagged hread)]
      exact hcodec.2 h
  | graph v =>
    have hnames : ∀ m ∈ v.members, m.1 ≠ tagName :=
      v.members_eq ▸ ne_tagName v.names_slots (by decide)
    have hread : ∀ m ∈ v.members, m.2.isReadable 124 := fun m hm =>
      GraphView.isReadable_slots (v.members_eq ▸ hm)
    rw [toJson, ofJson?_tagged _ hnames, if_pos (isReadable_tagged hread)]
    simp [ofTag?, Json.text?_ofString, v.ofJson?_members, InRange]

end NodeView

/-! ## Edges -/

namespace EdgeView

/-- The slots of an edge, in the order of the fields. -/
def slots (e : EdgeView) : Slots :=
  [("id", some (.ofString e.id)), ("source", some (.ofString e.source)),
    ("target", some (.ofString e.target)), ("label", some (.ofString e.label)),
    ("in_largest_path", some (.bool e.marked)),
    ("stream_ids", some (.ofList .ofString e.streams)), ("coalesced", some (.bool e.merged))]

/-- An edge is always read back, as it has no numbers either. -/
theorem ofJson?_toJson (e : EdgeView) : ofJson? e.toJson = some e := by
  have hslots : Json.slots? fields e.toJson = some e.slots :=
    Json.slots?_members (by decide) (show e.slots.map Prod.fst = _ from rfl)
  have hstreams : e.slots.required "stream_ids" (Json.list? Json.text?) = some e.streams :=
    Json.list?_ofList Json.text?_ofString e.streams
  rw [ofJson?, hslots, Option.bind_eq_bind, Option.bind_some, hstreams]
  rfl

end EdgeView

/-! ## Whole views -/

namespace View

/-- The numbers of a view fit into the fields that hold them. -/
def InRange (v : View) : Prop :=
  ∀ n ∈ v.nodes, n.InRange

/-- The slots of a view, in the order of the fields. -/
def slots (v : View) : Slots :=
  [("nodes", some (.ofList NodeView.toJson v.nodes)),
    ("edges", some (.ofList EdgeView.toJson v.edges))]

/-- A view is read back exactly if all numbers of its codecs fit into their fields. -/
theorem ofJson?_toJson (v : View) : ofJson? v.toJson = some v ↔ v.InRange := by
  have hslots : Json.slots? fields v.toJson = some v.slots :=
    Json.slots?_members (by decide) (show v.slots.map Prod.fst = _ from rfl)
  have hnodes : v.slots.required "nodes" (Json.list? NodeView.ofJson?) = some v.nodes ↔
      v.InRange :=
    (Json.list?_ofList_iff v.nodes).trans (forall₂_congr fun n _ => n.ofJson?_toJson)
  have hedges : v.slots.required "edges" (Json.list? EdgeView.ofJson?) = some v.edges :=
    Json.list?_ofList EdgeView.ofJson?_toJson v.edges
  rw [← hnodes, ofJson?, hslots, Option.bind_eq_bind, Option.bind_some, hedges,
    Option.bind_eq_bind, Option.bind_eq_some_iff]
  constructor
  · rintro ⟨nodes, hread, h⟩
    rw [hread, ← congrArg View.nodes (Option.some.inj h)]
  · exact fun hread => ⟨v.nodes, hread, rfl⟩

/-- The text in which a view is handed out is read as that view, unless a number is too
    long for the field that it is read into. -/
theorem parse?_viewReport (v : View) :
    parse? (CommandLine.viewReport .json v) = some v ↔ v.InRange := by
  rw [parse?, CommandLine.viewReport, Json.parse?_indented]
  exact v.ofJson?_toJson

end View

end TraceFold
