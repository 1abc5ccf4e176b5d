/-
  TraceFold.Proofs.Scene.Refusal

  What a refused trace is refused for.  Each fault says something of the lists of a trace
  (`Trace.Exhibits`), and a trace that is refused exhibits the fault that is given
  (`refused_iff_exhibits`).  The checks follow one another: what a fault says may rest on
  what the checks before its own have found, so that "the" codec which consumes a stream is
  the only one.  Conversely no trace that exhibits a fault, be it the one that is given or
  another one, records a pipeline, so the checks let none of them pass.
-/

import TraceFold.Proofs.Dag.Cycle
import TraceFold.Proofs.Scene.Build

namespace TraceFold

open Relation (ReflTransGen TransGen)

variable {t : Trace} {c d : CodecId} {i : StreamId} {g : GraphId} {fault : Fault}

namespace Trace

/-! ## What faults say -/

/-- A codec has an output that nothing consumes.  The root input is not counted. -/
def Leaves (t : Trace) (c : CodecId) (i : StreamId) : Prop :=
  i ∈ t.outputsOf c ∧ i ≠ .rootInput ∧ t.Unconsumed i

/-- A codec has two different outputs that nothing consumes. -/
def LeavesTwo (t : Trace) (c : CodecId) : Prop :=
  ∃ i j, i ≠ j ∧ t.Leaves c i ∧ t.Leaves c j

/-- A codec feeds itself through others, or is fed by one that does. -/
def Entangled (t : Trace) (c : CodecId) : Prop :=
  ∃ u, TransGen t.Feeds u u ∧ ReflTransGen t.Feeds u c

/-- What a fault says of the lists of a trace. -/
def Exhibits (t : Trace) : Fault → Prop
  | .emptyTrace => t.codecs = []
  | .unknownStream c i => (i ∈ t.outputsOf c ∨ i ∈ t.inputsOf c) ∧ t.streams.length ≤ i.index
  | .unknownCodec g c => c ∈ t.membersOf g ∧ t.codecs.length ≤ c.index
  | .codecInMultipleGraphs c first second =>
    c ∈ t.membersOf first ∧ c ∈ t.membersOf second ∧ first.index < second.index
  | .streamMultipleSources i first second =>
    i ∈ t.outputsOf first ∧ i ∈ t.outputsOf second ∧ first.index < second.index
  | .streamMultipleTargets i first second =>
    i ∈ t.inputsOf first ∧ i ∈ t.inputsOf second ∧ first.index < second.index
  | .terminalWithoutSource i => i.index < t.streams.length ∧ i ≠ .rootInput ∧
    (∀ c, i ∉ t.outputsOf c) ∧ ∀ c, i ∉ t.inputsOf c
  | .multipleTerminals c is => t.LeavesTwo c ∧ (∀ d : CodecId, d.index < c.index → ¬t.LeavesTwo d) ∧
    (is.Pairwise fun i j => i.index < j.index) ∧ ∀ i, i ∈ is ↔ t.Leaves c i
  | .missingRootInput => t.streams = []
  | .rootInputTarget found => t.streams ≠ [] ∧ found ≠ some .root ∧
    ∀ c, .rootInput ∈ t.inputsOf c ↔ found = some c
  | .rootInputProduced source => ∀ c, .rootInput ∈ t.outputsOf c ↔ c = source
  | .rootInputs inputs => inputs = t.inputsOf .root ∧ inputs ≠ [.rootInput]
  | .streamWithoutSource i => i.index < t.streams.length ∧ i ≠ .rootInput ∧
    (∀ c, i ∉ t.outputsOf c) ∧ ∃ c, i ∈ t.inputsOf c
  | .additionalRoot c => c.index < t.codecs.length ∧ c ≠ .root ∧ t.inputsOf c = [] ∧
    ∀ d : CodecId, d.index < c.index → d ≠ .root → t.inputsOf d ≠ []
  | .cycle unresolved => (∃ c, TransGen t.Feeds c c) ∧
    (unresolved.Pairwise fun c d => c.index < d.index) ∧ ∀ c, c ∈ unresolved ↔ t.Entangled c

/-! ## Lists that name something of another table -/

/-- Naming something is a fault if it is not known or has been named before. -/
theorem listingFault_eq_some {ι : Type} [DecidableEq ι] {size n : Nat} {first here : ι}
    {unknown twice : Fault}
    (h : (if size ≤ n then some unknown else if first = here then none else some twice)
      = some fault) : size ≤ n ∧ fault = unknown ∨ first ≠ here ∧ fault = twice := by
  split at h
  · rename_i hsize
    exact Or.inl ⟨hsize, (Option.some.inj h).symm⟩
  · split at h
    · cases h
    · rename_i hne
      exact Or.inr ⟨hne, (Option.some.inj h).symm⟩

/-- A fault of a codec that a graph lists is one that the trace has. -/
theorem exhibits_of_memberFault? (hc : c ∈ t.membersOf g) (h : t.memberFault? g c = some fault) :
    t.Exhibits fault := by
  obtain ⟨first, hfirst⟩ := exists_ownerOf hc
  rw [memberFault?, hfirst] at h
  rcases listingFault_eq_some h with ⟨hunknown, rfl⟩ | ⟨hne, rfl⟩
  · exact ⟨hc, hunknown⟩
  · have hle : first.index ≤ g.index := ownerOf_le hfirst hc
    have hdistinct : first.index ≠ g.index := fun heq => hne (GraphId.index_inj.1 heq)
    exact ⟨mem_membersOf_of_ownerOf hfirst, hc, by omega⟩

/-- So is a fault of an output. -/
theorem exhibits_of_outputFault? (hi : i ∈ t.outputsOf c) (h : t.outputFault? c i = some fault) :
    t.Exhibits fault := by
  obtain ⟨first, hfirst⟩ := exists_sourceOf hi
  rw [outputFault?, hfirst] at h
  rcases listingFault_eq_some h with ⟨hunknown, rfl⟩ | ⟨hne, rfl⟩
  · exact ⟨Or.inl hi, hunknown⟩
  · have hle : first.index ≤ c.index := sourceOf_le hfirst hi
    have hdistinct : first.index ≠ c.index := fun heq => hne (CodecId.index_inj.1 heq)
    exact ⟨mem_outputsOf_of_sourceOf hfirst, hi, by omega⟩

/-- So is a fault of an input. -/
theorem exhibits_of_inputFault? (hi : i ∈ t.inputsOf c) (h : t.inputFault? c i = some fault) :
    t.Exhibits fault := by
  obtain ⟨first, hfirst⟩ := exists_targetOf hi
  rw [inputFault?, hfirst] at h
  rcases listingFault_eq_some h with ⟨hunknown, rfl⟩ | ⟨hne, rfl⟩
  · exact ⟨Or.inr hi, hunknown⟩
  · have hle : first.index ≤ c.index := targetOf_le hfirst hi
    have hdistinct : first.index ≠ c.index := fun heq => hne (CodecId.index_inj.1 heq)
    exact ⟨mem_inputsOf_of_targetOf hfirst, hi, by omega⟩

/-- What is found first in a table is found at an entry, and at none before it. -/
theorem exists_of_findSome?_zipIdx {β γ : Type} {table : List β} {f : β × Nat → Option γ} {b : γ}
    (h : table.zipIdx.findSome? f = some b) : ∃ n entry, table[n]? = some entry ∧
      f (entry, n) = some b ∧ ∀ m < n, ∀ other, table[m]? = some other → f (other, m) = none := by
  obtain ⟨before, ⟨entry, n⟩, after, hsplit, hfound, hnone⟩ := List.findSome?_eq_some_iff.1 h
  -- the place of an entry in the table is the number of entries before it
  have hplace : table.zipIdx[before.length]? = some (entry, n) := by
    rw [hsplit, List.getElem?_append_right (Nat.le_refl _), Nat.sub_self, List.getElem?_cons_zero]
  rw [List.getElem?_zipIdx, Option.map_eq_some_iff] at hplace
  obtain ⟨entry', hentry, heq⟩ := hplace
  obtain ⟨rfl, rfl⟩ := Prod.mk.inj heq
  rw [Nat.zero_add] at hfound
  refine ⟨before.length, entry', hentry, hfound, fun m hm other hother => hnone _ ?_⟩
  have hbefore : table.zipIdx[m]? = some (other, m) := by
    rw [List.getElem?_zipIdx, hother, Option.map_some, Nat.zero_add]
  rw [hsplit, List.getElem?_append_left hm] at hbefore
  exact List.mem_of_getElem? hbefore

theorem exhibits_of_ownerFault? (h : t.ownerFault? = some fault) : t.Exhibits fault := by
  obtain ⟨n, graph, hgraph, hfound, -⟩ := exists_of_findSome?_zipIdx h
  obtain ⟨c, hc, hfault⟩ := List.exists_of_findSome?_eq_some hfound
  exact exhibits_of_memberFault? (mem_listAt.2 ⟨graph, hgraph, hc⟩) hfault

theorem exhibits_of_endFault? (h : t.endFault? = some fault) : t.Exhibits fault := by
  obtain ⟨n, codec, hcodec, hfound, -⟩ := exists_of_findSome?_zipIdx h
  simp only [Option.orElse_eq_orElse, Option.orElse_eq_or, Option.or_eq_some_iff] at hfound
  rcases hfound with hout | ⟨-, hin⟩
  · obtain ⟨i, hi, hfault⟩ := List.exists_of_findSome?_eq_some hout
    exact exhibits_of_outputFault? (mem_listAt.2 ⟨codec, hcodec, hi⟩) hfault
  · obtain ⟨i, hi, hfault⟩ := List.exists_of_findSome?_eq_some hin
    exact exhibits_of_inputFault? (mem_listAt.2 ⟨codec, hcodec, hi⟩) hfault

/-! ## Streams without a producer -/

theorem exhibits_of_unproducedTerminalFault? (h : t.unproducedTerminalFault? = some fault) :
    t.Exhibits fault := by
  obtain ⟨i, hi, hfound⟩ := List.exists_of_findSome?_eq_some h
  split at hfound
  · rename_i htest
    obtain rfl := Option.some.inj hfound
    rw [Bool.and_eq_true, isTerminal_iff, Option.isNone_iff_eq_none, sourceOf_eq_none] at htest
    obtain ⟨⟨hroot, hunconsumed⟩, hunproduced⟩ := htest
    exact ⟨mem_streamIds.1 hi, hroot, hunproduced, hunconsumed⟩
  · cases hfound

theorem exhibits_of_unproducedFault? (h : t.unproducedFault? = some fault) :
    t.Exhibits fault := by
  obtain ⟨i, hi, hfound⟩ := List.exists_of_findSome?_eq_some h
  split at hfound
  · rename_i htest
    obtain rfl := Option.some.inj hfound
    obtain ⟨hroot, hterminal, hsource⟩ := htest
    rw [← Bool.not_eq_true, isTerminal_iff, not_and] at hterminal
    have hconsumed : ∃ c, i ∈ t.inputsOf c := not_forall_not.1 (hterminal hroot)
    exact ⟨mem_streamIds.1 hi, hroot, sourceOf_eq_none.1 hsource, hconsumed⟩
  · cases hfound

/-! ## Terminal streams -/

theorem pairwise_terminalsOf (codec : CodecRecord) :
    (t.terminalsOf codec).Pairwise fun i j => i.index < j.index := by
  have hids : t.streamIds.Pairwise fun i j => i.index < j.index :=
    List.pairwise_lt_range.map StreamId.mk fun _ _ hlt => hlt
  exact hids.filter _

/-- Of a codec that lists streams of the table, the terminal streams are the outputs that
    nothing consumes. -/
theorem mem_terminalsOf_iff_leaves {codec : CodecRecord} (hcodec : t.codecs[c.index]? = some codec)
    (hknown : ∀ i ∈ t.outputsOf c, i.index < t.streams.length) :
    i ∈ t.terminalsOf codec ↔ t.Leaves c i := by
  have hlist : t.outputsOf c = codec.outputs := listAt_of_getElem? hcodec
  rw [mem_terminalsOf, isTerminal_iff, Leaves, ← hlist]
  exact and_iff_right_of_imp fun hi => hknown i hi.1

/-- A codec has two terminal outputs exactly if the list of these has two entries. -/
theorem leavesTwo_iff_terminalsOf {codec : CodecRecord} (hcodec : t.codecs[c.index]? = some codec)
    (hknown : ∀ i ∈ t.outputsOf c, i.index < t.streams.length) :
    t.LeavesTwo c ↔ 1 < (t.terminalsOf codec).length := by
  have hmem := fun i => mem_terminalsOf_iff_leaves (i := i) hcodec hknown
  rw [← Nat.not_le, length_le_one_iff (nodup_terminalsOf codec)]
  constructor
  · rintro ⟨i, j, hne, hi, hj⟩ hall
    exact hne (hall i ((hmem i).2 hi) j ((hmem j).2 hj))
  · intro hnot
    push Not at hnot
    obtain ⟨i, hi, j, hj, hne⟩ := hnot
    exact ⟨i, j, hne, (hmem i).1 hi, (hmem j).1 hj⟩

theorem exhibits_of_terminalCountFault?
    (hknown : ∀ c, ∀ i ∈ t.outputsOf c, i.index < t.streams.length)
    (h : t.terminalCountFault? = some fault) : t.Exhibits fault := by
  obtain ⟨n, codec, hcodec, hfound, hbefore⟩ := exists_of_findSome?_zipIdx h
  simp only at hfound hbefore
  split at hfound
  · rename_i hmany
    obtain rfl := Option.some.inj hfound
    have htwo := leavesTwo_iff_terminalsOf (c := ⟨n⟩) hcodec (hknown ⟨n⟩)
    refine ⟨htwo.2 hmany, ?_, pairwise_terminalsOf codec, fun i => ?_⟩
    · -- a codec before this one has an entry before this one's, which has passed
      rintro d hd ⟨i, j, hne, hi, hj⟩
      obtain ⟨other, hother, -⟩ := mem_listAt.1 hi.1
      have hpass := hbefore d.index hd other hother
      have hmany' := (leavesTwo_iff_terminalsOf hother (hknown d)).1 ⟨i, j, hne, hi, hj⟩
      rw [if_pos hmany'] at hpass
      cases hpass
    · exact mem_terminalsOf_iff_leaves (c := ⟨n⟩) hcodec (hknown ⟨n⟩)
  · cases hfound

/-! ## The root -/

theorem exhibits_of_emptyFault? (h : t.emptyFault? = some fault) : t.Exhibits fault := by
  rw [emptyFault?] at h
  split at h
  · rename_i hempty
    obtain rfl := Option.some.inj h
    exact List.isEmpty_iff.1 hempty
  · cases h

/-- Once no stream has two sources or two targets, the ones that the root's check finds are
    the only ones. -/
theorem exhibits_of_rootFault? (hends : t.endFault? = none) (h : t.rootFault? = some fault) :
    t.Exhibits fault := by
  obtain ⟨houtputs, hinputs⟩ := endFault?_eq_none_iff.1 hends
  have hsource : ∀ c, .rootInput ∈ t.outputsOf c ↔ t.sourceOf .rootInput = some c := fun c =>
    ⟨fun hc => (houtputs c _ hc).2, mem_outputsOf_of_sourceOf⟩
  have htarget : ∀ c, .rootInput ∈ t.inputsOf c ↔ t.targetOf .rootInput = some c := fun c =>
    ⟨fun hc => (hinputs c _ hc).2, mem_inputsOf_of_targetOf⟩
  simp only [rootFault?, ← inputsOf_root] at h
  split at h
  · rename_i hempty
    obtain rfl := Option.some.inj h
    exact List.isEmpty_iff.1 hempty
  · rename_i hstreams
    rw [List.isEmpty_iff] at hstreams
    split at h
    · rename_i hwrong
      obtain rfl := Option.some.inj h
      exact ⟨hstreams, hwrong, htarget⟩
    · split at h
      · rename_i source hproduced
        obtain rfl := Option.some.inj h
        intro c
        rw [hsource, hproduced, Option.some.injEq, eq_comm]
      · split at h
        · cases h
        · rename_i hother
          obtain rfl := Option.some.inj h
          exact ⟨rfl, hother⟩

theorem exhibits_of_additionalRootFault? (h : t.additionalRootFault? = some fault) :
    t.Exhibits fault := by
  obtain ⟨n, codec, hcodec, hfound, hbefore⟩ := exists_of_findSome?_zipIdx h
  simp only at hfound hbefore
  have hinputs : ∀ m record, t.codecs[m]? = some record → t.inputsOf ⟨m⟩ = record.inputs :=
    fun _ _ hrecord => listAt_of_getElem? hrecord
  split at hfound
  · rename_i htest
    obtain rfl := Option.some.inj hfound
    have hn : n < t.codecs.length := (List.getElem?_eq_some_iff.1 hcodec).1
    refine ⟨hn, fun hroot => htest.1 (congrArg CodecId.index hroot), ?_, fun d hd hroot hnil => ?_⟩
    · rw [hinputs n codec hcodec, htest.2]
    · have hd' := List.getElem?_eq_getElem (Nat.lt_trans hd hn)
      have hpass := hbefore d.index hd _ hd'
      rw [← hinputs d.index _ hd', if_pos ⟨fun hzero => hroot (CodecId.index_inj.1 hzero), hnil⟩]
        at hpass
      cases hpass
  · cases hfound

/-! ## All checks -/

/-- A fault that the checks give is one that the trace exhibits. -/
theorem exhibits_of_fault? (h : t.fault? = some fault) : t.Exhibits fault := by
  simp only [fault?, Option.orElse_eq_orElse, Option.orElse_eq_or, Option.or_eq_some_iff] at h
  rcases h with h | ⟨-, h | ⟨-, h | ⟨hends, h | ⟨-, h | ⟨-, h | ⟨-, h | ⟨-, h⟩⟩⟩⟩⟩⟩⟩
  · exact exhibits_of_emptyFault? h
  · exact exhibits_of_ownerFault? h
  · exact exhibits_of_endFault? h
  · exact exhibits_of_unproducedTerminalFault? h
  · have hknown := (endFault?_eq_none_iff.1 hends).1
    exact exhibits_of_terminalCountFault? (fun c i hi => (hknown c i hi).1) h
  · exact exhibits_of_rootFault? hends h
  · exact exhibits_of_unproducedFault? h
  · exact exhibits_of_additionalRootFault? h

/-- The codecs that cannot be put in order are named in a fault that the trace exhibits. -/
theorem Checked.exhibits_cycle (h : t.Checked) {unresolved : List CodecId}
    (herror : Dag.ofChildren t.tables.children = .error unresolved) :
    t.Exhibits (.cycle unresolved) := by
  have hknown : ∀ u v, Dag.Child t.tables.children u v → v.index < t.tables.children.size := by
    intro u v huv
    obtain ⟨i, hi⟩ := h.lawful_tables.child_iff.1 huv
    have hv := h.lawful_tables.target_known i u v hi
    simpa [Pipeline.children] using hv
  obtain ⟨hascending, hmem⟩ := Dag.names_of_error hknown herror
  have hcycle : ∃ c, TransGen t.Feeds c c := by
    by_contra hacyclic
    rw [← h.child_eq_feeds] at hacyclic
    obtain ⟨dag, hdag⟩ := Dag.exists_ofChildren_iff.2 (not_exists.1 hacyclic)
    rw [herror] at hdag
    cases hdag
  refine ⟨hcycle, hascending, fun c => ?_⟩
  rw [hmem, Dag.Entangled, h.child_eq_feeds, Entangled]

/-- A trace that exhibits a fault does not record a pipeline. -/
theorem Exhibits.not_isPipeline (h : t.Exhibits fault) : ¬t.IsPipeline := by
  intro hp
  have hroot : StreamId.rootInput ∈ t.inputsOf .root := by
    rw [hp.root_inputs]
    exact List.mem_singleton_self _
  cases fault with
  | emptyTrace => exact hp.nonempty h
  | unknownStream c i =>
    obtain ⟨hi, hunknown⟩ := h
    exact Nat.not_lt.2 hunknown (hi.elim (hp.outputs_known c i) (hp.inputs_known c i))
  | unknownCodec g c => exact Nat.not_lt.2 h.2 (hp.members_known g c h.1)
  | codecInMultipleGraphs c first second =>
    obtain rfl := hp.one_owner c first second h.1 h.2.1
    exact Nat.lt_irrefl _ h.2.2
  | streamMultipleSources i first second =>
    obtain rfl := hp.one_source i first second h.1 h.2.1
    exact Nat.lt_irrefl _ h.2.2
  | streamMultipleTargets i first second =>
    obtain rfl := hp.one_target i first second h.1 h.2.1
    exact Nat.lt_irrefl _ h.2.2
  | terminalWithoutSource i =>
    obtain ⟨c, hc⟩ := hp.produced i h.1 h.2.1
    exact h.2.2.1 c hc
  | multipleTerminals c is =>
    obtain ⟨⟨i, j, hne, hi, hj⟩, -⟩ := h
    exact hne (hp.one_terminal c i hi.1 j hj.1 hi.2.2 hj.2.2)
  | missingRootInput =>
    have hlt := hp.inputs_known _ _ hroot
    rw [h] at hlt
    exact Nat.not_lt_zero _ hlt
  | rootInputTarget found => exact h.2.1 ((h.2.2 .root).1 hroot)
  | rootInputProduced source => exact hp.root_input_unproduced source ((h source).2 rfl)
  | rootInputs inputs => exact h.2 (h.1.trans hp.root_inputs)
  | streamWithoutSource i =>
    obtain ⟨c, hc⟩ := hp.produced i h.1 h.2.1
    exact h.2.2.1 c hc
  | additionalRoot c => exact hp.inputs_nonempty c h.1 h.2.1 h.2.2.1
  | cycle unresolved =>
    obtain ⟨⟨c, hc⟩, -⟩ := h
    exact hp.acyclic c hc

end Trace

/-! ## Refused traces -/

namespace Scene

variable {settings : Settings}

/-- Whatever a trace is refused with, it has that fault. -/
theorem exhibits_of_build_error (h : Scene.build t settings = .error fault) :
    t.Exhibits fault := by
  unfold build at h
  split at h
  · rename_i hfault
    obtain rfl := Except.error.inj h
    exact Trace.exhibits_of_fault? hfault
  · rename_i hnone
    split at h
    · rename_i unresolved herror
      obtain rfl := Except.error.inj h
      exact (Trace.fault?_eq_none_iff.1 hnone).exhibits_cycle herror
    · cases h

/-- A trace that is refused exhibits the fault that it is refused for, and every trace that
    exhibits a fault is refused. -/
theorem refused_iff_exhibits (t : Trace) (settings : Settings) :
    (∀ fault, Scene.build t settings = .error fault → t.Exhibits fault) ∧
      ((∃ fault, Scene.build t settings = .error fault) ↔ ∃ fault, t.Exhibits fault) := by
  refine ⟨fun fault => exhibits_of_build_error, ?_, ?_⟩
  · rintro ⟨fault, hfault⟩
    exact ⟨fault, exhibits_of_build_error hfault⟩
  · rintro ⟨fault, hfault⟩
    cases hbuild : Scene.build t settings with
    | error given => exact ⟨given, rfl⟩
    | ok s =>
      have hpipeline := (exists_build_iff_isPipeline t settings).1 ⟨s, hbuild⟩
      exact absurd hpipeline hfault.not_isPipeline

/-- Four codecs, of which the second and the third feed each other, and the third the last
    one too. -/
def knot : Trace where
  codecs := [
    { name := "first", inputs := [⟨0⟩], outputs := [⟨1⟩] },
    { name := "second", inputs := [⟨1⟩, ⟨3⟩], outputs := [⟨2⟩] },
    { name := "third", inputs := [⟨2⟩], outputs := [⟨3⟩, ⟨4⟩] },
    { name := "fourth", inputs := [⟨4⟩] }]
  streams := List.replicate 5 {}

/-- The codec behind the cycle is named with it. -/
theorem refused_knot : Scene.build knot {} = .error (.cycle [⟨1⟩, ⟨2⟩, ⟨3⟩]) ∧
    knot.Exhibits (.cycle [⟨1⟩, ⟨2⟩, ⟨3⟩]) := by
  have hrun : (match Scene.build knot {} with
      | .error fault => some fault
      | .ok _ => none) = some (.cycle [⟨1⟩, ⟨2⟩, ⟨3⟩]) := by
    decide +kernel
  have hbuild : Scene.build knot {} = .error (.cycle [⟨1⟩, ⟨2⟩, ⟨3⟩]) := by
    cases h : Scene.build knot {} with
    | error fault =>
      rw [h] at hrun
      rw [Option.some.inj hrun]
    | ok s =>
      rw [h] at hrun
      cases hrun
  exact ⟨hbuild, (refused_iff_exhibits knot {}).1 _ hbuild⟩

end Scene

end TraceFold
