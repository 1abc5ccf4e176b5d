/-
  TraceFold.Proofs.Trace.Checked

  What the checks of a trace amount to.  Each check is read as the rule that it decides;
  together they say that the trace is `Checked`, a list of conditions on the lists of its
  graphs and codecs (`fault?_eq_none_iff`).  The checks follow one another and rely on
  what those in front have found, so the rules are proved in the same order.
-/

import Mathlib.Data.List.Nodup
import TraceFold.Pipeline.Check
import TraceFold.Proofs.Trace.Listing

namespace TraceFold.Trace

variable {t : Trace}

/-- A trace that passes every check, cycles apart. -/
structure Checked (t : Trace) : Prop where
  nonempty : t.codecs ≠ []
  members_known : ∀ g, ∀ c ∈ t.membersOf g, c.index < t.codecs.length
  one_owner : ∀ c g h, c ∈ t.membersOf g → c ∈ t.membersOf h → g = h
  outputs_known : ∀ c, ∀ s ∈ t.outputsOf c, s.index < t.streams.length
  inputs_known : ∀ c, ∀ s ∈ t.inputsOf c, s.index < t.streams.length
  one_source : ∀ s c d, s ∈ t.outputsOf c → s ∈ t.outputsOf d → c = d
  one_target : ∀ s c d, s ∈ t.inputsOf c → s ∈ t.inputsOf d → c = d
  root_inputs : t.inputsOf .root = [.rootInput]
  root_input_unproduced : ∀ c, .rootInput ∉ t.outputsOf c
  produced : ∀ s : StreamId, s.index < t.streams.length → s ≠ .rootInput →
    ∃ c, s ∈ t.outputsOf c
  one_terminal : ∀ c, ∀ s ∈ t.outputsOf c, ∀ s' ∈ t.outputsOf c,
    t.Unconsumed s → t.Unconsumed s' → s = s'
  inputs_nonempty : ∀ c : CodecId, c.index < t.codecs.length → c ≠ .root → t.inputsOf c ≠ []

/-! ## Lists that name something of another table -/

/-- Naming something is no fault if it is known and nothing else has named it before. -/
theorem listingFault_eq_none_iff {ι : Type} [DecidableEq ι] {size i : Nat} {first here : ι}
    {unknown twice : Fault} :
    (if size ≤ i then some unknown else if first = here then none else some twice) = none ↔
      i < size ∧ first = here := by
  by_cases hsize : size ≤ i
  · simp [hsize, Nat.not_lt.2 hsize]
  · simp [hsize, Nat.not_le.1 hsize]

/-- A codec that a graph lists is in order if it is known and the graph is its owner. -/
theorem memberFault?_eq_none_iff {g : GraphId} {c : CodecId} (h : c ∈ t.membersOf g) :
    t.memberFault? g c = none ↔ c.index < t.codecs.length ∧ t.ownerOf c = some g := by
  obtain ⟨first, hfirst⟩ := exists_ownerOf h
  rw [memberFault?, hfirst, Option.some.injEq]
  exact listingFault_eq_none_iff

/-- An output is in order if the stream is known and the codec is its source. -/
theorem outputFault?_eq_none_iff {c : CodecId} {s : StreamId} (h : s ∈ t.outputsOf c) :
    t.outputFault? c s = none ↔ s.index < t.streams.length ∧ t.sourceOf s = some c := by
  obtain ⟨first, hfirst⟩ := exists_sourceOf h
  rw [outputFault?, hfirst, Option.some.injEq]
  exact listingFault_eq_none_iff

/-- An input is in order if the stream is known and the codec is its target. -/
theorem inputFault?_eq_none_iff {c : CodecId} {s : StreamId} (h : s ∈ t.inputsOf c) :
    t.inputFault? c s = none ↔ s.index < t.streams.length ∧ t.targetOf s = some c := by
  obtain ⟨first, hfirst⟩ := exists_targetOf h
  rw [inputFault?, hfirst, Option.some.injEq]
  exact listingFault_eq_none_iff

/-- Going through a table and the lists of its entries is going through all its lists. -/
theorem forall_zipIdx_iff {α β : Type} (lists : β → List α) (table : List β)
    (p : Nat → α → Prop) :
    (∀ entry ∈ table.zipIdx, ∀ x ∈ lists entry.1, p entry.2 x) ↔
      ∀ i, ∀ x ∈ listAt lists table i, p i x := by
  constructor
  · intro h i x hx
    obtain ⟨entry, hentry, hx⟩ := mem_listAt.1 hx
    exact h (entry, i) (List.mem_zipIdx_iff_getElem?.2 hentry) x hx
  · rintro h ⟨entry, i⟩ hentry x hx
    exact h i x (mem_listAt.2 ⟨entry, List.mem_zipIdx_iff_getElem?.1 hentry, hx⟩)

/-- No fault is found among the graphs exactly if all codecs that they list are in order. -/
theorem ownerFault?_eq_none_iff : t.ownerFault? = none ↔
    ∀ g, ∀ c ∈ t.membersOf g, c.index < t.codecs.length ∧ t.ownerOf c = some g := by
  simp only [ownerFault?, List.findSome?_eq_none_iff]
  rw [forall_zipIdx_iff (·.codecs) t.graphs fun g c => t.memberFault? ⟨g⟩ c = none]
  constructor
  · intro h g c hc
    exact (memberFault?_eq_none_iff hc).1 (h g.index c hc)
  · intro h g c hc
    exact (memberFault?_eq_none_iff (g := ⟨g⟩) hc).2 (h ⟨g⟩ c hc)

/-- No fault is found among the ends of streams exactly if all outputs and all inputs are in
    order. -/
theorem endFault?_eq_none_iff : t.endFault? = none ↔
    (∀ c, ∀ s ∈ t.outputsOf c, s.index < t.streams.length ∧ t.sourceOf s = some c) ∧
      ∀ c, ∀ s ∈ t.inputsOf c, s.index < t.streams.length ∧ t.targetOf s = some c := by
  have hboth : t.endFault? = none ↔
      (∀ entry ∈ t.codecs.zipIdx, ∀ s ∈ entry.1.outputs, t.outputFault? ⟨entry.2⟩ s = none) ∧
        ∀ entry ∈ t.codecs.zipIdx, ∀ s ∈ entry.1.inputs, t.inputFault? ⟨entry.2⟩ s = none := by
    simp only [endFault?, List.findSome?_eq_none_iff, Option.orElse_eq_orElse,
      Option.orElse_eq_or, Option.or_eq_none_iff, forall_and]
  rw [hboth, forall_zipIdx_iff (·.outputs) t.codecs fun c s => t.outputFault? ⟨c⟩ s = none,
    forall_zipIdx_iff (·.inputs) t.codecs fun c s => t.inputFault? ⟨c⟩ s = none]
  refine and_congr ⟨fun h c s hs => ?_, fun h c s hs => ?_⟩ ⟨fun h c s hs => ?_, fun h c s hs => ?_⟩
  · exact (outputFault?_eq_none_iff hs).1 (h c.index s hs)
  · exact (outputFault?_eq_none_iff (c := ⟨c⟩) hs).2 (h ⟨c⟩ s hs)
  · exact (inputFault?_eq_none_iff hs).1 (h c.index s hs)
  · exact (inputFault?_eq_none_iff (c := ⟨c⟩) hs).2 (h ⟨c⟩ s hs)

/-! ## Streams without a producer -/

theorem mem_streamIds {s : StreamId} : s ∈ t.streamIds ↔ s.index < t.streams.length := by
  simp only [streamIds, List.mem_map, List.mem_range]
  constructor
  · rintro ⟨i, hi, rfl⟩
    exact hi
  · intro hs
    exact ⟨s.index, hs, rfl⟩

/-- A stream is an output of some codec exactly if it has a source. -/
theorem exists_output_iff {s : StreamId} : (∃ c, s ∈ t.outputsOf c) ↔ t.sourceOf s ≠ none := by
  rw [ne_eq, sourceOf_eq_none]
  exact not_forall_not.symm

/-- Every terminal stream has to be an output of a codec. -/
theorem unproducedTerminalFault?_eq_none_iff : t.unproducedTerminalFault? = none ↔
    ∀ s : StreamId, s.index < t.streams.length → t.isTerminal s → ∃ c, s ∈ t.outputsOf c := by
  simp only [unproducedTerminalFault?, List.findSome?_eq_none_iff, mem_streamIds,
    exists_output_iff]
  refine forall₂_congr fun s _ => ?_
  cases t.isTerminal s <;> simp

/-- So has every other stream, except for the input of the root. -/
theorem unproducedFault?_eq_none_iff : t.unproducedFault? = none ↔
    ∀ s : StreamId, s.index < t.streams.length → s ≠ .rootInput → t.isTerminal s = false →
      ∃ c, s ∈ t.outputsOf c := by
  simp only [unproducedFault?, List.findSome?_eq_none_iff, mem_streamIds, exists_output_iff]
  refine forall₂_congr fun s _ => ?_
  simp only [ite_eq_right_iff, reduceCtorEq, imp_false, not_and, ne_eq]

/-! ## Terminal streams -/

/-- A list without duplicates has no two elements exactly if all its elements are equal. -/
theorem length_le_one_iff {α : Type} {l : List α} (h : l.Nodup) :
    l.length ≤ 1 ↔ ∀ a ∈ l, ∀ b ∈ l, a = b := by
  cases l with
  | nil => simp
  | cons a l =>
      cases l with
      | nil => simp
      | cons b l =>
          have hne : a ≠ b := fun hab => (List.nodup_cons.1 h).1 (hab ▸ List.mem_cons_self)
          constructor
          · intro hlength
            simp at hlength
          · intro hall
            exact absurd (hall a (by simp) b (by simp)) hne

theorem mem_terminalsOf {codec : CodecRecord} {s : StreamId} : s ∈ t.terminalsOf codec ↔
    s.index < t.streams.length ∧ s ∈ codec.outputs ∧ t.isTerminal s := by
  simp [terminalsOf, mem_streamIds]

theorem nodup_terminalsOf (codec : CodecRecord) : (t.terminalsOf codec).Nodup := by
  have hids : t.streamIds.Nodup := List.Nodup.map (fun _ _ h => StreamId.mk.inj h) List.nodup_range
  exact hids.filter _

/-- No codec may have two terminal outputs. -/
theorem terminalCountFault?_eq_none_iff
    (hknown : ∀ c, ∀ s ∈ t.outputsOf c, s.index < t.streams.length) :
    t.terminalCountFault? = none ↔ ∀ c, ∀ s ∈ t.outputsOf c, ∀ s' ∈ t.outputsOf c,
      t.isTerminal s → t.isTerminal s' → s = s' := by
  simp only [terminalCountFault?, List.findSome?_eq_none_iff, ite_eq_right_iff, reduceCtorEq,
    imp_false, Nat.not_lt]
  constructor
  · intro h c s hs s' hs' hterm hterm'
    -- both streams are outputs of one record, which is checked by itself
    obtain ⟨codec, hcodec, hs⟩ := mem_listAt.1 hs
    obtain ⟨_, heq, hs'⟩ := mem_listAt.1 hs'
    obtain rfl := Option.some.inj (hcodec.symm.trans heq)
    have hlist : ∀ x ∈ codec.outputs, x ∈ t.outputsOf c := fun x hx =>
      mem_listAt.2 ⟨codec, hcodec, hx⟩
    refine (length_le_one_iff (nodup_terminalsOf codec)).1
      (h (codec, c.index) (List.mem_zipIdx_iff_getElem?.2 hcodec)) s ?_ s' ?_
    · exact mem_terminalsOf.2 ⟨hknown c s (hlist s hs), hs, hterm⟩
    · exact mem_terminalsOf.2 ⟨hknown c s' (hlist s' hs'), hs', hterm'⟩
  · rintro h ⟨codec, c⟩ hcodec
    have hlist : ∀ x ∈ codec.outputs, x ∈ t.outputsOf ⟨c⟩ := fun x hx =>
      mem_listAt.2 ⟨codec, List.mem_zipIdx_iff_getElem?.1 hcodec, hx⟩
    refine (length_le_one_iff (nodup_terminalsOf codec)).2 fun s hs s' hs' => ?_
    obtain ⟨-, hs, hterm⟩ := mem_terminalsOf.1 hs
    obtain ⟨-, hs', hterm'⟩ := mem_terminalsOf.1 hs'
    exact h ⟨c⟩ s (hlist s hs) s' (hlist s' hs') hterm hterm'

/-! ## The root -/

theorem emptyFault?_eq_none_iff : t.emptyFault? = none ↔ t.codecs ≠ [] := by
  simp [emptyFault?]

/-- The root has the input of the root as its only input, and no codec has that as an output. -/
theorem rootFault?_eq_none_iff : t.rootFault? = none ↔ t.streams ≠ [] ∧
    t.targetOf .rootInput = some .root ∧ (∀ c, .rootInput ∉ t.outputsOf c) ∧
      t.inputsOf .root = [.rootInput] := by
  rw [← sourceOf_eq_none]
  simp only [rootFault?, ← inputsOf_root]
  by_cases hempty : t.streams = []
  · simp [hempty]
  · by_cases htarget : t.targetOf .rootInput = some .root
    · cases hsource : t.sourceOf .rootInput with
      | none => simp [hempty, htarget]
      | some c => simp [hempty, htarget]
    · simp [hempty, htarget]

/-- Every codec but the root has to have an input. -/
theorem additionalRootFault?_eq_none_iff : t.additionalRootFault? = none ↔
    ∀ c : CodecId, c.index < t.codecs.length → c ≠ .root → t.inputsOf c ≠ [] := by
  simp only [additionalRootFault?, List.findSome?_eq_none_iff, ite_eq_right_iff, reduceCtorEq,
    imp_false, not_and]
  constructor
  · intro h c hc hroot
    have hcodec := List.getElem?_eq_getElem hc
    have hinputs : t.inputsOf c = t.codecs[c.index].inputs := listAt_of_getElem? hcodec
    rw [hinputs]
    refine h (t.codecs[c.index], c.index) (List.mem_zipIdx_iff_getElem?.2 hcodec) fun hzero => ?_
    exact hroot (CodecId.index_inj.1 hzero)
  · rintro h ⟨codec, c⟩ hcodec hzero
    have hcodec := List.mem_zipIdx_iff_getElem?.1 hcodec
    have hinputs : t.inputsOf ⟨c⟩ = codec.inputs := listAt_of_getElem? hcodec
    rw [← hinputs]
    refine h ⟨c⟩ (List.getElem?_eq_some_iff.1 hcodec).1 fun hroot => ?_
    exact hzero (congrArg CodecId.index hroot)

/-! ## All checks -/

/-- No fault is found exactly if none of the eight checks finds one. -/
theorem fault?_eq_none_iff_all : t.fault? = none ↔ t.emptyFault? = none ∧ t.ownerFault? = none ∧
    t.endFault? = none ∧ t.unproducedTerminalFault? = none ∧ t.terminalCountFault? = none ∧
      t.rootFault? = none ∧ t.unproducedFault? = none ∧ t.additionalRootFault? = none := by
  simp only [fault?, Option.orElse_eq_orElse, Option.orElse_eq_or, Option.or_eq_none_iff]

namespace Checked

/-- In a trace that is checked, the graph that lists a codec is its owner. -/
theorem ownerOf_iff (h : t.Checked) {c : CodecId} {g : GraphId} :
    t.ownerOf c = some g ↔ c ∈ t.membersOf g := by
  refine ⟨mem_membersOf_of_ownerOf, fun hc => ?_⟩
  obtain ⟨first, hfirst⟩ := exists_ownerOf hc
  rw [hfirst, h.one_owner c first g (mem_membersOf_of_ownerOf hfirst) hc]

theorem sourceOf_iff (h : t.Checked) {s : StreamId} {c : CodecId} :
    t.sourceOf s = some c ↔ s ∈ t.outputsOf c := by
  refine ⟨mem_outputsOf_of_sourceOf, fun hs => ?_⟩
  obtain ⟨first, hfirst⟩ := exists_sourceOf hs
  rw [hfirst, h.one_source s first c (mem_outputsOf_of_sourceOf hfirst) hs]

theorem targetOf_iff (h : t.Checked) {s : StreamId} {c : CodecId} :
    t.targetOf s = some c ↔ s ∈ t.inputsOf c := by
  refine ⟨mem_inputsOf_of_targetOf, fun hs => ?_⟩
  obtain ⟨first, hfirst⟩ := exists_targetOf hs
  rw [hfirst, h.one_target s first c (mem_inputsOf_of_targetOf hfirst) hs]

end Checked

/-- A trace has no fault, cycles apart, exactly if it is checked. -/
theorem fault?_eq_none_iff : t.fault? = none ↔ t.Checked := by
  rw [fault?_eq_none_iff_all, emptyFault?_eq_none_iff, ownerFault?_eq_none_iff,
    endFault?_eq_none_iff, unproducedTerminalFault?_eq_none_iff, rootFault?_eq_none_iff,
    unproducedFault?_eq_none_iff, additionalRootFault?_eq_none_iff]
  constructor
  · rintro ⟨hempty, howner, ⟨houtputs, hinputs⟩, hterminal, hcount, ⟨-, htarget, hsource, hroot⟩,
      hproduced, hroots⟩
    rw [terminalCountFault?_eq_none_iff fun c s hs => (houtputs c s hs).1] at hcount
    have hconsumed : ¬t.Unconsumed .rootInput := fun h =>
      h .root (mem_inputsOf_of_targetOf htarget)
    exact {
      nonempty := hempty
      members_known := fun g c hc => (howner g c hc).1
      one_owner := fun c g g' hg hg' =>
        Option.some.inj ((howner g c hg).2.symm.trans (howner g' c hg').2)
      outputs_known := fun c s hs => (houtputs c s hs).1
      inputs_known := fun c s hs => (hinputs c s hs).1
      one_source := fun s c d hc hd =>
        Option.some.inj ((houtputs c s hc).2.symm.trans (houtputs d s hd).2)
      one_target := fun s c d hc hd =>
        Option.some.inj ((hinputs c s hc).2.symm.trans (hinputs d s hd).2)
      root_inputs := hroot
      root_input_unproduced := hsource
      produced := fun s hs hne => by
        cases hterm : t.isTerminal s with
        | false => exact hproduced s hs hne hterm
        | true => exact hterminal s hs hterm
      one_terminal := fun c s hs s' hs' hun hun' =>
        -- the root input is consumed, so an unconsumed stream is a terminal one
        hcount c s hs s' hs' (isTerminal_iff.2 ⟨fun h => hconsumed (h ▸ hun), hun⟩)
          (isTerminal_iff.2 ⟨fun h => hconsumed (h ▸ hun'), hun'⟩)
      inputs_nonempty := hroots }
  · intro h
    have hroot : StreamId.rootInput ∈ t.inputsOf .root := by
      rw [h.root_inputs]
      exact List.mem_singleton_self _
    rw [terminalCountFault?_eq_none_iff h.outputs_known]
    refine ⟨h.nonempty, ?_, ⟨?_, ?_⟩, ?_, ?_, ⟨?_, ?_, h.root_input_unproduced, h.root_inputs⟩, ?_,
      h.inputs_nonempty⟩
    · exact fun g c hc => ⟨h.members_known g c hc, h.ownerOf_iff.2 hc⟩
    · exact fun c s hs => ⟨h.outputs_known c s hs, h.sourceOf_iff.2 hs⟩
    · exact fun c s hs => ⟨h.inputs_known c s hs, h.targetOf_iff.2 hs⟩
    · exact fun s hs hterm => h.produced s hs (isTerminal_iff.1 hterm).1
    · intro c s hs s' hs' hterm hterm'
      exact h.one_terminal c s hs s' hs' (isTerminal_iff.1 hterm).2 (isTerminal_iff.1 hterm').2
    · exact List.ne_nil_of_length_pos (Nat.zero_lt_of_lt (h.inputs_known _ _ hroot))
    · exact h.targetOf_iff.2 hroot
    · exact fun s hs hne _ => h.produced s hs hne

end TraceFold.Trace
