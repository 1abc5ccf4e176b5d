/-
  TraceFold.Proofs.Trace.Listing

  Which lists of a trace name an entity.  Graphs list codecs, and codecs list streams as
  outputs and as inputs.  All three are tables whose entries hold a list (`listAt`), and
  `ownerOf`, `sourceOf` and `targetOf` find the first entry that lists something
  (`first_listing_eq_some_iff`), or none if no entry does.
-/

import Mathlib.Data.List.Basic
import TraceFold.Trace.Ends

namespace TraceFold

/-! ## Tables of lists -/

section Table

variable {α β : Type} {lists : β → List α} {table : List β} {x : α} {i : Nat}

/-- The list that an entry of a table holds; empty past the end of the table. -/
def listAt (lists : β → List α) (table : List β) (i : Nat) : List α :=
  (table[i]?.map lists).getD []

theorem mem_listAt :
    x ∈ listAt lists table i ↔ ∃ entry, table[i]? = some entry ∧ x ∈ lists entry := by
  unfold listAt
  cases table[i]? <;> simp

/-- At the place of an entry, the list is that of the entry. -/
theorem listAt_of_getElem? {entry : β} (h : table[i]? = some entry) :
    listAt lists table i = lists entry := by
  rw [listAt, h, Option.map_some, Option.getD_some]

/-- Only entries of the table list anything. -/
theorem lt_length_of_mem_listAt (h : x ∈ listAt lists table i) : i < table.length := by
  obtain ⟨entry, hentry, -⟩ := mem_listAt.1 h
  exact (List.getElem?_eq_some_iff.1 hentry).1

/-- No entry lists something exactly if none at any place does. -/
theorem forall_not_mem_listAt :
    (∀ i, x ∉ listAt lists table i) ↔ ∀ entry ∈ table, x ∉ lists entry := by
  constructor
  · intro h entry hentry hx
    obtain ⟨i, hi⟩ := List.mem_iff_getElem?.1 hentry
    exact h i (mem_listAt.2 ⟨entry, hi, hx⟩)
  · intro h i hx
    obtain ⟨entry, hi, hx⟩ := mem_listAt.1 hx
    exact h entry (List.mem_of_getElem? hi) hx

variable [DecidableEq α]

/-- The first entry that lists something lists it, and none before it does. -/
theorem first_listing_eq_some_iff :
    (table.findIdx? fun entry => (lists entry).contains x) = some i ↔
      x ∈ listAt lists table i ∧ ∀ j < i, x ∉ listAt lists table j := by
  rw [List.findIdx?_eq_some_iff_getElem]
  constructor
  · rintro ⟨hi, hx, hbefore⟩
    refine ⟨mem_listAt.2 ⟨_, List.getElem?_eq_getElem hi, by simpa using hx⟩, fun j hj hxj => ?_⟩
    obtain ⟨entry, hentry, hmem⟩ := mem_listAt.1 hxj
    rw [List.getElem?_eq_getElem (Nat.lt_trans hj hi), Option.some.injEq] at hentry
    exact hbefore j hj (by simpa [hentry] using hmem)
  · rintro ⟨hx, hbefore⟩
    have hi := lt_length_of_mem_listAt hx
    refine ⟨hi, ?_, fun j hj hxj => hbefore j hj ?_⟩
    · obtain ⟨entry, hentry, hmem⟩ := mem_listAt.1 hx
      rw [List.getElem?_eq_getElem hi, Option.some.injEq] at hentry
      simpa [hentry] using hmem
    · exact mem_listAt.2 ⟨_, List.getElem?_eq_getElem (Nat.lt_trans hj hi), by simpa using hxj⟩

/-- No entry that lists something comes before the first one that does. -/
theorem first_listing_le {j : Nat}
    (hfirst : (table.findIdx? fun entry => (lists entry).contains x) = some i)
    (hx : x ∈ listAt lists table j) : i ≤ j := by
  obtain ⟨-, hbefore⟩ := first_listing_eq_some_iff.1 hfirst
  by_contra hlt
  exact hbefore j (Nat.lt_of_not_le hlt) hx

/-- Something that an entry lists has a first entry that lists it. -/
theorem exists_first_listing (h : x ∈ listAt lists table i) :
    ∃ j, (table.findIdx? fun entry => (lists entry).contains x) = some j := by
  obtain ⟨entry, hentry, hx⟩ := mem_listAt.1 h
  refine Option.isSome_iff_exists.1 (List.findIdx?_isSome.trans ?_)
  exact List.any_eq_true.2 ⟨entry, List.mem_of_getElem? hentry, by simpa using hx⟩

end Table

/-! ## The lists of a trace -/

namespace Trace

variable {t : Trace} {c : CodecId} {s : StreamId} {g : GraphId}

/-- The codecs that a graph lists. -/
def membersOf (t : Trace) (g : GraphId) : List CodecId :=
  listAt (·.codecs) t.graphs g.index

/-- The streams that a codec lists as outputs. -/
def outputsOf (t : Trace) (c : CodecId) : List StreamId :=
  listAt (·.outputs) t.codecs c.index

/-- The streams that a codec lists as inputs. -/
def inputsOf (t : Trace) (c : CodecId) : List StreamId :=
  listAt (·.inputs) t.codecs c.index

/-- No codec lists a stream as an input. -/
def Unconsumed (t : Trace) (s : StreamId) : Prop :=
  ∀ c, s ∉ t.inputsOf c

/-- One codec lists a stream as an output that the other lists as an input. -/
def Feeds (t : Trace) (u v : CodecId) : Prop :=
  ∃ s, s ∈ t.outputsOf u ∧ s ∈ t.inputsOf v

/-- The root is the codec that is recorded first. -/
theorem inputsOf_root : t.inputsOf .root = (t.codecs.head?.map (·.inputs)).getD [] := by
  rw [List.head?_eq_getElem?]
  rfl

/-- The owner of a codec lists it. -/
theorem mem_membersOf_of_ownerOf (h : t.ownerOf c = some g) : c ∈ t.membersOf g := by
  obtain ⟨i, hi, rfl⟩ := Option.map_eq_some_iff.1 h
  exact (first_listing_eq_some_iff.1 hi).1

/-- The source of a stream has it as an output. -/
theorem mem_outputsOf_of_sourceOf (h : t.sourceOf s = some c) : s ∈ t.outputsOf c := by
  obtain ⟨i, hi, rfl⟩ := Option.map_eq_some_iff.1 h
  exact (first_listing_eq_some_iff.1 hi).1

/-- The target of a stream has it as an input. -/
theorem mem_inputsOf_of_targetOf (h : t.targetOf s = some c) : s ∈ t.inputsOf c := by
  obtain ⟨i, hi, rfl⟩ := Option.map_eq_some_iff.1 h
  exact (first_listing_eq_some_iff.1 hi).1

/-- A codec that is listed has an owner. -/
theorem exists_ownerOf (h : c ∈ t.membersOf g) : ∃ first, t.ownerOf c = some first := by
  obtain ⟨j, hj⟩ := exists_first_listing h
  exact ⟨⟨j⟩, Option.map_eq_some_iff.2 ⟨j, hj, rfl⟩⟩

theorem exists_sourceOf (h : s ∈ t.outputsOf c) : ∃ first, t.sourceOf s = some first := by
  obtain ⟨j, hj⟩ := exists_first_listing h
  exact ⟨⟨j⟩, Option.map_eq_some_iff.2 ⟨j, hj, rfl⟩⟩

theorem exists_targetOf (h : s ∈ t.inputsOf c) : ∃ first, t.targetOf s = some first := by
  obtain ⟨j, hj⟩ := exists_first_listing h
  exact ⟨⟨j⟩, Option.map_eq_some_iff.2 ⟨j, hj, rfl⟩⟩

/-- Of the graphs that list a codec, the first one is its owner. -/
theorem ownerOf_le {first : GraphId} (h : t.ownerOf c = some first) (hc : c ∈ t.membersOf g) :
    first.index ≤ g.index := by
  obtain ⟨i, hi, rfl⟩ := Option.map_eq_some_iff.1 h
  exact first_listing_le hi hc

/-- Of the codecs that have a stream as an output, the first one is its source. -/
theorem sourceOf_le {first : CodecId} (h : t.sourceOf s = some first) (hs : s ∈ t.outputsOf c) :
    first.index ≤ c.index := by
  obtain ⟨i, hi, rfl⟩ := Option.map_eq_some_iff.1 h
  exact first_listing_le hi hs

/-- Of the codecs that have a stream as an input, the first one is its target. -/
theorem targetOf_le {first : CodecId} (h : t.targetOf s = some first) (hs : s ∈ t.inputsOf c) :
    first.index ≤ c.index := by
  obtain ⟨i, hi, rfl⟩ := Option.map_eq_some_iff.1 h
  exact first_listing_le hi hs

theorem sourceOf_eq_none : t.sourceOf s = none ↔ ∀ c, s ∉ t.outputsOf c := by
  rw [sourceOf_eq_none_iff, ← forall_not_mem_listAt]
  exact ⟨fun h c => h c.index, fun h i => h ⟨i⟩⟩

theorem targetOf_eq_none : t.targetOf s = none ↔ t.Unconsumed s := by
  rw [targetOf_eq_none_iff, ← forall_not_mem_listAt]
  exact ⟨fun h c => h c.index, fun h i => h ⟨i⟩⟩

theorem isTerminal_iff : t.isTerminal s ↔ s ≠ .rootInput ∧ t.Unconsumed s := by
  simp [isTerminal, targetOf_eq_none]

end Trace

end TraceFold
