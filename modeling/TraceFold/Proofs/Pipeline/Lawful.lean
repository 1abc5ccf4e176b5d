/-
  TraceFold.Proofs.Pipeline.Lawful

  What the tables of a checked trace are like.  A stream is drawn from one codec to
  another (`Draws`) if one lists it as an output and the other as an input, and the
  tables keep of the outputs of a codec exactly the streams that are drawn from it.
  Owners and member lists agree, the root is drawn to from nowhere, and every other codec
  is drawn to from somewhere (`Lawful`).
-/

import TraceFold.Dag
import TraceFold.Proofs.Trace.Checked

namespace TraceFold

/-! ## Streams that are drawn -/

namespace Pipeline

variable {p : Pipeline} {u v : CodecId} {s : StreamId}

/-- A stream is drawn from one codec to another. -/
def Draws (p : Pipeline) (s : StreamId) (u v : CodecId) : Prop :=
  ∃ x, p.stream? s = some x ∧ x.ends = some (u, v)

/-- A stream is drawn between two codecs at most. -/
theorem Draws.unique {u' v' : CodecId} (h : p.Draws s u v) (h' : p.Draws s u' v') :
    u = u' ∧ v = v' := by
  obtain ⟨x, hx, hends⟩ := h
  obtain ⟨x', hx', hends'⟩ := h'
  obtain rfl := Option.some.inj (hx.symm.trans hx')
  simpa using hends.symm.trans hends'

/-- The outputs that are drawn are those whose streams have both ends. -/
theorem mem_drawnOutputs {codec : Codec} {x : Stream} :
    (x, v) ∈ p.drawnOutputs codec ↔
      ∃ s ∈ codec.outputs, p.stream? s = some x ∧ ∃ u, x.ends = some (u, v) := by
  simp only [drawnOutputs, List.mem_filterMap, Option.bind_eq_bind, Option.bind_eq_some_iff,
    Option.pure_def, Option.some.injEq, Prod.mk.injEq, Prod.exists]
  constructor
  · rintro ⟨s, hs, x', hx, u, v', hends, rfl, rfl⟩
    exact ⟨s, hs, hx, u, hends⟩
  · rintro ⟨s, hs, hx, u, hends⟩
    exact ⟨s, hs, x, hx, u, v, hends, rfl, rfl⟩

/-- The streams that are drawn are those of the tables that have both ends. -/
theorem mem_drawnStreams {x : Stream} :
    (x, u, v) ∈ p.drawnStreams ↔ ∃ s, p.stream? s = some x ∧ x.ends = some (u, v) := by
  simp only [drawnStreams, List.mem_filterMap, Option.map_eq_some_iff, Prod.mk.injEq]
  constructor
  · rintro ⟨x', hx', ends, hends, rfl, rfl⟩
    obtain ⟨i, hi⟩ := List.mem_iff_getElem?.1 hx'
    exact ⟨⟨i⟩, by simpa [stream?] using hi, hends⟩
  · rintro ⟨s, hx, hends⟩
    refine ⟨x, ?_, (u, v), hends, rfl, rfl⟩
    exact List.mem_of_getElem? (by simpa [stream?] using hx)

/-- The children of a codec are the targets of its outputs, each once. -/
theorem childrenIn_children :
    Dag.childrenIn p.children u
      = ((p.codec? u).map fun codec => ((p.drawnOutputs codec).map (·.2)).eraseDups).getD [] := by
  simp [Dag.childrenIn, children, codec?]

end Pipeline

/-! ## The tables of a pipeline -/

/-- Tables that agree with one another. -/
structure Pipeline.Lawful (p : Pipeline) : Prop where
  stream_id : ∀ s x, p.stream? s = some x → x.id = s
  source_known : ∀ s u v, p.Draws s u v → u.index < p.codecs.size
  target_known : ∀ s u v, p.Draws s u v → v.index < p.codecs.size
  /-- The outputs of a codec are the streams that are drawn from it. -/
  mem_outputs : ∀ u codec s, p.codec? u = some codec →
    (s ∈ codec.outputs ↔ ∃ v, p.Draws s u v)
  mem_members : ∀ c g, c ∈ p.members g ↔ p.owner? c = some g
  root_known : CodecId.root.index < p.codecs.size
  root_unfed : ∀ s u, ¬p.Draws s u .root
  fed : ∀ c : CodecId, c.index < p.codecs.size → c ≠ .root → ∃ s u, p.Draws s u c

namespace Trace

variable {t : Trace} {s : StreamId} {c u v : CodecId} {g : GraphId}

@[simp] theorem size_codecs_tables (t : Trace) : t.tables.codecs.size = t.codecs.length := by
  simp [tables]

/-- Every stream takes part but the input of the root and the terminal ones. -/
theorem exclusionOf_eq_none : t.exclusionOf s = none ↔ s ≠ .rootInput ∧ t.isTerminal s = false := by
  unfold exclusionOf
  by_cases hroot : s = .rootInput
  · simp [hroot]
  · cases t.isTerminal s <;> simp [hroot]

/-- A stream has both ends if it takes part and the trace has a source and a target for it. -/
theorem ends_streamOf {r : StreamRecord} : (t.streamOf s r).ends = some (u, v) ↔
    t.exclusionOf s = none ∧ t.sourceOf s = some u ∧ t.targetOf s = some v := by
  simp only [streamOf, Stream.ends]
  cases t.exclusionOf s <;> cases t.sourceOf s <;> cases t.targetOf s <;> simp

/-- The owner in the tables is the one that the trace gives, for codecs that there are. -/
theorem owner?_tables (t : Trace) (c : CodecId) :
    t.tables.owner? c = if c.index < t.codecs.length then t.ownerOf c else none := by
  rw [Pipeline.owner?, codec?_tables]
  by_cases hc : c.index < t.codecs.length
  · simp [hc, codecOf]
  · simp [hc]

theorem members_tables (t : Trace) (g : GraphId) : t.tables.members g = t.membersOf g := by
  simp [Pipeline.members, graph?_tables, membersOf, listAt, graphOf, Function.comp_def]

namespace Checked

variable (h : t.Checked)
include h

theorem ne_rootInput (hs : s ∈ t.outputsOf u) : s ≠ .rootInput := by
  rintro rfl
  exact h.root_input_unproduced u hs

/-- A stream is drawn between the codec that lists it as an output and the one that lists
    it as an input. -/
theorem draws_iff : t.tables.Draws s u v ↔ s ∈ t.outputsOf u ∧ s ∈ t.inputsOf v := by
  simp only [Pipeline.Draws, stream?_tables, Option.map_eq_some_iff]
  constructor
  · rintro ⟨-, ⟨r, -, rfl⟩, hends⟩
    obtain ⟨-, hsource, htarget⟩ := ends_streamOf.1 hends
    exact ⟨h.sourceOf_iff.1 hsource, h.targetOf_iff.1 htarget⟩
  · rintro ⟨hout, hin⟩
    have hr := List.getElem?_eq_getElem (h.outputs_known u s hout)
    refine ⟨_, ⟨_, hr, rfl⟩, ends_streamOf.2 ⟨exclusionOf_eq_none.2 ⟨h.ne_rootInput hout, ?_⟩,
      h.sourceOf_iff.2 hout, h.targetOf_iff.2 hin⟩⟩
    rw [← Bool.not_eq_true, isTerminal_iff]
    exact fun hterm => hterm.2 v hin

/-- The outputs that a codec keeps are the streams that are drawn out of it. -/
theorem mem_outputs_codecOf {r : CodecRecord} (hr : t.codecs[u.index]? = some r) :
    s ∈ (t.codecOf u r).outputs ↔ ∃ v, t.tables.Draws s u v := by
  have hlist : t.outputsOf u = r.outputs := listAt_of_getElem? hr
  simp only [codecOf, List.mem_filter, h.draws_iff, ← hlist]
  rw [exists_and_left]
  refine and_congr_right fun hs => ?_
  rw [Bool.not_eq_true', ← Bool.not_eq_true, isTerminal_iff]
  constructor
  · intro hterm
    by_contra hnone
    exact hterm ⟨h.ne_rootInput hs, not_exists.1 hnone⟩
  · rintro ⟨v, hv⟩ ⟨-, hun⟩
    exact hun v hv

/-- The tables of a trace that is checked agree with each other. -/
theorem lawful_tables : t.tables.Lawful where
  stream_id s x hx := by
    obtain ⟨r, -, rfl⟩ := Option.map_eq_some_iff.1 ((stream?_tables t s).symm.trans hx)
    rfl
  source_known s u v hd := by
    simpa using lt_length_of_mem_listAt (h.draws_iff.1 hd).1
  target_known s u v hd := by
    simpa using lt_length_of_mem_listAt (h.draws_iff.1 hd).2
  mem_outputs u codec s hcodec := by
    obtain ⟨r, hr, rfl⟩ := Option.map_eq_some_iff.1 ((codec?_tables t u).symm.trans hcodec)
    exact h.mem_outputs_codecOf hr
  mem_members c g := by
    rw [members_tables, owner?_tables, ← h.ownerOf_iff]
    constructor
    · intro hg
      rw [if_pos (h.members_known g c (mem_membersOf_of_ownerOf hg)), hg]
    · intro hg
      split at hg
      · exact hg
      · cases hg
  root_known := by
    rw [size_codecs_tables]
    exact List.length_pos_iff.2 h.nonempty
  root_unfed s u hd := by
    obtain ⟨hout, hin⟩ := h.draws_iff.1 hd
    rw [h.root_inputs, List.mem_singleton] at hin
    exact h.ne_rootInput hout hin
  fed c hc hroot := by
    rw [size_codecs_tables] at hc
    obtain ⟨s, hs⟩ := List.exists_mem_of_ne_nil _ (h.inputs_nonempty c hc hroot)
    have hne : s ≠ .rootInput := by
      -- the root lists its input, and no other codec may list it again
      rintro rfl
      refine hroot (h.one_target .rootInput c .root hs ?_)
      rw [h.root_inputs]
      exact List.mem_singleton_self _
    obtain ⟨u, hu⟩ := h.produced s (h.inputs_known c s hs) hne
    exact ⟨s, u, h.draws_iff.2 ⟨hu, hs⟩⟩

end Checked

end Trace

end TraceFold
