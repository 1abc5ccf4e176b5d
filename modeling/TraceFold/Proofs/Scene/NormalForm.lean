/-
  TraceFold.Proofs.Scene.NormalForm

  What the tables and the order of a scene look like, in terms of the trace alone.  The
  tables are those of the trace, less what is not drawn (`Pipeline.NormalForm`): of the
  outputs, the streams that nothing consumes are left out, the root has no inputs, and
  every stream that is left joins the one codec that lists it as an output with the one
  that lists it as an input.  Everything hangs together below the root
  (`Scene.NormalForm`): all other codecs are below it, and the order begins with it.
-/

import TraceFold.Proofs.Folding.Reachable
import TraceFold.View.Project

namespace TraceFold

variable {t : Trace} {i : StreamId} {c : CodecId}

/-! ## The lists of a table -/

namespace Pipeline

/-- The outputs that a codec keeps. -/
def outputsOf (p : Pipeline) (c : CodecId) : List StreamId :=
  ((p.codec? c).map (·.outputs)).getD []

/-- The inputs that a codec keeps. -/
def inputsOf (p : Pipeline) (c : CodecId) : List StreamId :=
  ((p.codec? c).map (·.inputs)).getD []

/-- A stream is marked as one that nothing consumes. -/
def marksTerminal (p : Pipeline) (i : StreamId) : Bool :=
  (p.stream? i).any (·.exclusion == some .terminal)

/-- Tables that hold the lists of a trace, less what is not drawn. -/
structure NormalForm (p : Pipeline) (t : Trace) : Prop where
  size_codecs : p.codecs.size = t.codecs.length
  size_streams : p.streams.size = t.streams.length
  size_graphs : p.graphs.size = t.graphs.length
  exclusion_rootInput : ∀ i x, p.stream? i = some x →
    (x.exclusion = some .rootInput ↔ i = .rootInput)
  exclusion_terminal : ∀ i x, p.stream? i = some x →
    (x.exclusion = some .terminal ↔ i ≠ .rootInput ∧ t.Unconsumed i)
  exclusion_none : ∀ i x, p.stream? i = some x →
    (x.exclusion = none ↔ i ≠ .rootInput ∧ ¬t.Unconsumed i)
  outputs_eq : ∀ c, p.outputsOf c = (t.outputsOf c).filter fun i => !p.marksTerminal i
  inputs_eq : ∀ c, p.inputsOf c = if c = .root then [] else t.inputsOf c
  /-- A stream that is not excluded has one source and one target. -/
  ends : ∀ i x, p.stream? i = some x → x.exclusion = none →
    ∃ u v, x.ends = some (u, v) ∧ (∀ c, i ∈ p.outputsOf c ↔ c = u) ∧
      ∀ c, i ∈ p.inputsOf c ↔ c = v
  outputs_drawn : ∀ c, ∀ i ∈ p.outputsOf c, ∃ x, p.stream? i = some x ∧ x.exclusion = none
  inputs_drawn : ∀ c, ∀ i ∈ p.inputsOf c, ∃ x, p.stream? i = some x ∧ x.exclusion = none
  mem_members : ∀ c g, c ∈ p.members g ↔ p.owner? c = some g

end Pipeline

/-! ## The tables of a checked trace -/

namespace Trace

theorem exclusionOf_eq_rootInput : t.exclusionOf i = some .rootInput ↔ i = .rootInput := by
  unfold exclusionOf
  by_cases hroot : i = .rootInput
  · simp [hroot]
  · cases t.isTerminal i <;> simp [hroot]

theorem exclusionOf_eq_terminal :
    t.exclusionOf i = some .terminal ↔ i ≠ .rootInput ∧ t.Unconsumed i := by
  rw [← isTerminal_iff]
  unfold exclusionOf
  by_cases hroot : i = .rootInput
  · simp [hroot, isTerminal]
  · cases t.isTerminal i <;> simp [hroot]

theorem exclusionOf_eq_none_iff :
    t.exclusionOf i = none ↔ i ≠ .rootInput ∧ ¬t.Unconsumed i := by
  rw [exclusionOf_eq_none, ← Bool.not_eq_true, isTerminal_iff]
  exact and_congr_right fun hroot => not_congr (and_iff_right hroot)

/-- A codec keeps its outputs but for the terminal streams. -/
theorem outputsOf_tables (t : Trace) (c : CodecId) :
    t.tables.outputsOf c = (t.outputsOf c).filter fun i => !t.isTerminal i := by
  simp only [Pipeline.outputsOf, codec?_tables, outputsOf, listAt]
  cases t.codecs[c.index]? <;> simp [codecOf]

/-- A codec keeps its inputs, and the root has none. -/
theorem inputsOf_tables (t : Trace) (c : CodecId) :
    t.tables.inputsOf c = if c = .root then [] else t.inputsOf c := by
  simp only [Pipeline.inputsOf, codec?_tables, inputsOf, listAt]
  cases t.codecs[c.index]? <;> simp [codecOf]

theorem exclusion_of_tables {x : Stream} (hx : t.tables.stream? i = some x) :
    x.exclusion = t.exclusionOf i := by
  obtain ⟨r, -, rfl⟩ := Option.map_eq_some_iff.1 ((stream?_tables t i).symm.trans hx)
  rfl

/-- A stream of the table that is neither the root input nor unconsumed is drawn. -/
theorem exists_drawn (hi : i.index < t.streams.length) (hroot : i ≠ .rootInput)
    (hc : i ∈ t.inputsOf c) : ∃ x, t.tables.stream? i = some x ∧ x.exclusion = none := by
  have hr := List.getElem?_eq_getElem hi
  refine ⟨t.streamOf i t.streams[i.index], ?_, ?_⟩
  · rw [stream?_tables, hr]
    rfl
  · exact exclusionOf_eq_none_iff.2 ⟨hroot, fun hun => hun c hc⟩

theorem marksTerminal_tables (hi : i.index < t.streams.length) :
    t.tables.marksTerminal i = t.isTerminal i := by
  have hr := List.getElem?_eq_getElem hi
  have hmark : t.tables.marksTerminal i ↔ t.isTerminal i := by
    rw [isTerminal_iff, ← exclusionOf_eq_terminal, Pipeline.marksTerminal, stream?_tables, hr]
    simp [streamOf]
  exact Bool.eq_iff_iff.2 hmark

namespace Checked

variable (h : t.Checked)
include h

/-- An output is kept exactly if some codec has it as an input. -/
theorem mem_outputsOf_tables :
    i ∈ t.tables.outputsOf c ↔ i ∈ t.outputsOf c ∧ ∃ v, i ∈ t.inputsOf v := by
  rw [outputsOf_tables, List.mem_filter]
  refine and_congr_right fun hi => ?_
  rw [Bool.not_eq_true', ← Bool.not_eq_true, isTerminal_iff, not_and, Unconsumed]
  refine ⟨fun hun => not_forall_not.1 (hun (h.ne_rootInput hi)), fun hv _ => ?_⟩
  exact not_forall_not.2 hv

/-- Only the root lists the root input, and nothing else. -/
theorem mem_inputsOf_root : i ∈ t.inputsOf c → (i = .rootInput ↔ c = .root) := by
  intro hi
  have hroot : StreamId.rootInput ∈ t.inputsOf .root := by
    rw [h.root_inputs]
    exact List.mem_singleton_self _
  refine ⟨?_, ?_⟩
  · -- the root lists it, and no stream has two targets
    rintro rfl
    exact h.one_target .rootInput c .root hi hroot
  · rintro rfl
    rwa [h.root_inputs, List.mem_singleton] at hi

theorem mem_inputsOf_tables :
    i ∈ t.tables.inputsOf c ↔ i ∈ t.inputsOf c ∧ i ≠ .rootInput := by
  rw [inputsOf_tables]
  refine ⟨fun hi => ?_, fun ⟨hi, hne⟩ => ?_⟩
  · split at hi
    · exact absurd hi List.not_mem_nil
    · rename_i hc
      exact ⟨hi, fun hroot => hc ((h.mem_inputsOf_root hi).1 hroot)⟩
  · rwa [if_neg fun hc => hne ((h.mem_inputsOf_root hi).2 hc)]

/-- The tables of a checked trace are in normal form. -/
theorem normalForm_tables : t.tables.NormalForm t where
  size_codecs := t.size_codecs_tables
  size_streams := by simp [tables]
  size_graphs := by simp [tables]
  exclusion_rootInput i x hx := by rw [exclusion_of_tables hx, exclusionOf_eq_rootInput]
  exclusion_terminal i x hx := by rw [exclusion_of_tables hx, exclusionOf_eq_terminal]
  exclusion_none i x hx := by rw [exclusion_of_tables hx, exclusionOf_eq_none_iff]
  outputs_eq c := by
    rw [outputsOf_tables]
    refine List.filter_congr fun i hi => ?_
    rw [marksTerminal_tables (h.outputs_known c i hi)]
  inputs_eq := inputsOf_tables t
  ends i x hx hnone := by
    -- the stream is consumed, and produced because it is not the root input
    rw [exclusion_of_tables hx] at hnone
    obtain ⟨hroot, hun⟩ := exclusionOf_eq_none_iff.1 hnone
    obtain ⟨v, hv⟩ := not_forall_not.1 hun
    obtain ⟨u, hu⟩ := h.produced i (h.inputs_known v i hv) hroot
    obtain ⟨r, -, rfl⟩ := Option.map_eq_some_iff.1 ((stream?_tables t i).symm.trans hx)
    refine ⟨u, v, ends_streamOf.2 ⟨hnone, h.sourceOf_iff.2 hu, h.targetOf_iff.2 hv⟩,
      fun c => ?_, fun c => ?_⟩
    · rw [h.mem_outputsOf_tables]
      refine ⟨fun hc => h.one_source i c u hc.1 hu, ?_⟩
      rintro rfl
      exact ⟨hu, v, hv⟩
    · rw [h.mem_inputsOf_tables]
      refine ⟨fun hc => h.one_target i c v hc.1 hv, ?_⟩
      rintro rfl
      exact ⟨hv, hroot⟩
  outputs_drawn c i hi := by
    obtain ⟨hout, v, hv⟩ := h.mem_outputsOf_tables.1 hi
    exact exists_drawn (h.outputs_known c i hout) (h.ne_rootInput hout) hv
  inputs_drawn c i hi := by
    obtain ⟨hin, hroot⟩ := h.mem_inputsOf_tables.1 hi
    exact exists_drawn (h.inputs_known c i hin) hroot hin
  mem_members := h.lawful_tables.mem_members

end Checked

end Trace

/-! ## The order of a scene -/

namespace Scene

variable {settings : Settings} {s : Scene}

/-- A scene whose tables are in normal form and whose codecs are ordered below the root. -/
structure NormalForm (s : Scene) (t : Trace) : Prop extends s.pipeline.NormalForm t where
  root_unfed : ∀ u, CodecId.root ∉ s.dag.childrenOf u
  exists_parent : ∀ c : CodecId, c.index < s.pipeline.codecs.size → c ≠ .root →
    ∃ u, c ∈ s.dag.childrenOf u
  below_root : ∀ c : CodecId, c.index < s.pipeline.codecs.size → c ≠ .root → s.Below .root c
  head?_order : s.dag.order.head? = some .root
  outputs_ne_nil_iff : ∀ c, s.pipeline.outputsOf c ≠ [] ↔ s.dag.childrenOf c ≠ []
  /-- What can be collapsed is what has children. -/
  collapsible_eq : ∀ f c codec, s.pipeline.codec? c = some codec →
    (s.codecView f codec).collapsible = s.dag.hasChildren c

namespace Sound

variable (h : s.Sound)
include h

/-- The root comes first, as nothing feeds it and all else is below it. -/
theorem head?_order : s.dag.order.head? = some .root := by
  have hroot : CodecId.root ∈ s.dag.order := h.mem_order.2 h.lawful.root_known
  cases horder : s.dag.order with
  | nil =>
    rw [horder] at hroot
    exact absurd hroot List.not_mem_nil
  | cons c rest =>
    rw [List.head?_cons, Option.some.injEq]
    by_contra hc
    have hmem : c ∈ s.dag.order := by
      rw [horder]
      exact List.mem_cons_self
    -- the first codec would come behind the root, which is above it
    have hlt := h.sorted.before_of_transGen (h.below_root (h.mem_order.1 hmem) hc)
    rw [horder, List.idxOf_cons_self] at hlt
    exact Nat.not_lt_zero _ hlt

/-- The outputs that a codec keeps are the streams that are drawn from it. -/
theorem mem_outputsOf : i ∈ s.pipeline.outputsOf c ↔ ∃ v, s.pipeline.Draws i c v := by
  unfold Pipeline.outputsOf
  cases hcodec : s.pipeline.codec? c with
  | none =>
    refine ⟨fun hi => absurd hi List.not_mem_nil, fun ⟨v, hv⟩ => ?_⟩
    have hlt := h.lawful.source_known i c v hv
    simp [Pipeline.codec?, hlt] at hcodec
  | some codec => exact h.lawful.mem_outputs c codec i hcodec

/-- A codec has an output exactly if it has a child. -/
theorem exists_output_iff_child :
    (∃ i, i ∈ s.pipeline.outputsOf c) ↔ ∃ v, v ∈ s.dag.childrenOf c := by
  simp only [h.mem_outputsOf]
  rw [exists_comm]
  exact exists_congr fun v => h.child_iff.symm

theorem outputs_ne_nil_iff : s.pipeline.outputsOf c ≠ [] ↔ s.dag.childrenOf c ≠ [] := by
  refine ⟨fun hout => ?_, fun hchildren => ?_⟩
  · obtain ⟨v, hv⟩ := h.exists_output_iff_child.1 (List.exists_mem_of_ne_nil _ hout)
    exact List.ne_nil_of_mem hv
  · obtain ⟨i, hi⟩ := h.exists_output_iff_child.2 (List.exists_mem_of_ne_nil _ hchildren)
    exact List.ne_nil_of_mem hi

end Sound

/-- A codec is found at its own number. -/
theorem id_of_codec?_tables {codec : Codec} (hcodec : t.tables.codec? c = some codec) :
    codec.id = c := by
  obtain ⟨r, -, rfl⟩ := Option.map_eq_some_iff.1 ((Trace.codec?_tables t c).symm.trans hcodec)
  rfl

/-- Every scene that is built is in normal form. -/
theorem normalForm_of_build (hbuild : Scene.build t settings = .ok s) : s.NormalForm t := by
  have h := sound_of_build hbuild
  obtain ⟨hchecked, hpipeline, -, -⟩ := build_eq_ok hbuild
  exact {
    toNormalForm := hpipeline ▸ hchecked.normalForm_tables
    root_unfed := fun u hu => by
      obtain ⟨i, hi⟩ := h.child_iff.1 hu
      exact h.lawful.root_unfed i u hi
    exists_parent := fun c hc hroot => by
      obtain ⟨i, u, hdraws⟩ := h.lawful.fed c hc hroot
      exact ⟨u, h.child_iff.2 ⟨i, hdraws⟩⟩
    below_root := fun c => h.below_root
    head?_order := h.head?_order
    outputs_ne_nil_iff := fun c => h.outputs_ne_nil_iff
    collapsible_eq := fun f c codec hcodec => by
      have hid : codec.id = c := id_of_codec?_tables (hpipeline ▸ hcodec)
      have houtputs : s.pipeline.outputsOf c = codec.outputs := by
        simp [Pipeline.outputsOf, hcodec]
      have hiff := h.outputs_ne_nil_iff (c := c)
      rw [houtputs] at hiff
      -- the flag asks for children or outputs, and a codec has both or none
      simp only [codecView, hid, Dag.hasChildren]
      cases hchildren : s.dag.childrenOf c <;> cases hout : codec.outputs <;>
        simp_all }

/-- The fork loses the two streams that nothing consumes. -/
theorem normalForm_fork : ∃ s, Scene.build fork {} = .ok s ∧ s.NormalForm fork := by
  obtain ⟨s, hs⟩ := exists_build_fork
  exact ⟨s, hs, normalForm_of_build hs⟩

end Scene

end TraceFold
