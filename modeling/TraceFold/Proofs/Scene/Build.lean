/-
  TraceFold.Proofs.Scene.Build

  Which traces give a scene, and what every such scene is like.  A trace gives one under
  any settings exactly if it records a pipeline (`Trace.IsPipeline`), which is said of the
  trace's lists alone.  The scene is then `Sound`: its tables agree with one another, and
  its codecs are in an order in which streams run forwards.
-/

import TraceFold.Proofs.Dag.Order
import TraceFold.Proofs.Pipeline.Lawful
import TraceFold.Scene

namespace TraceFold

open Relation (TransGen)

/-! ## Traces of pipelines -/

/-- A trace that records a pipeline: its lists agree, and no codec feeds itself through
    others. -/
structure Trace.IsPipeline (t : Trace) : Prop extends t.Checked where
  acyclic : ∀ c, ¬TransGen t.Feeds c c

namespace Pipeline.Lawful

variable {p : Pipeline} (h : p.Lawful)
include h

/-- The children of a codec are the targets of the streams that are drawn from it. -/
theorem child_iff {u v : CodecId} : Dag.Child p.children u v ↔ ∃ s, p.Draws s u v := by
  rw [Dag.Child, childrenIn_children]
  cases hcodec : p.codec? u with
  | none =>
      refine ⟨fun hv => absurd hv List.not_mem_nil, fun ⟨s, hs⟩ => ?_⟩
      have hlt := h.source_known s u v hs
      simp [codec?, hlt] at hcodec
  | some codec =>
      simp only [Option.map_some, Option.getD_some, List.mem_eraseDups, List.mem_map]
      refine ⟨fun hv => ?_, fun ⟨s, hs⟩ => ?_⟩
      · obtain ⟨⟨x, v'⟩, hx, rfl⟩ := hv
        obtain ⟨s, hout, hstream, u', hends⟩ := mem_drawnOutputs.1 hx
        obtain ⟨w, hw⟩ := (h.mem_outputs u codec s hcodec).1 hout
        have hdraws : p.Draws s u' v' := ⟨x, hstream, hends⟩
        obtain ⟨rfl, rfl⟩ := hw.unique hdraws
        exact ⟨s, hw⟩
      · obtain ⟨x, hstream, hends⟩ := hs
        have hout := (h.mem_outputs u codec s hcodec).2 ⟨v, x, hstream, hends⟩
        exact ⟨(x, v), mem_drawnOutputs.2 ⟨s, hout, hstream, u, hends⟩, rfl⟩

end Pipeline.Lawful

/-- In a trace that is checked, the children of a codec are the codecs that it feeds. -/
theorem Trace.Checked.child_eq_feeds {t : Trace} (h : t.Checked) :
    Dag.Child t.tables.children = t.Feeds := by
  funext u v
  simp only [h.lawful_tables.child_iff, h.draws_iff, Trace.Feeds]

/-! ## Building -/

namespace Scene

variable {t : Trace} {settings : Settings} {s : Scene}

/-- A scene is built if no fault is found and the codecs can be put in order. -/
theorem exists_build_iff : (∃ s, Scene.build t settings = .ok s) ↔
    t.fault? = none ∧ ∃ dag, Dag.ofChildren t.tables.children = .ok dag := by
  unfold build
  cases t.fault? with
  | some fault => simp
  | none => cases Dag.ofChildren t.tables.children <;> simp

theorem exists_build_of_isOk (h : (Scene.build t settings).isOk) :
    ∃ s, Scene.build t settings = .ok s := by
  cases hbuild : Scene.build t settings with
  | error e => simp [hbuild, Except.isOk, Except.toBool] at h
  | ok s => exact ⟨s, rfl⟩

/-- What has been tested of a result is true of one. -/
theorem exists_of_any_toOption {α ε : Type} {x : Except ε α} {q : α → Bool}
    (h : x.toOption.any q = true) : ∃ a, x = .ok a ∧ q a := by
  cases x with
  | error e => cases h
  | ok a => exact ⟨a, rfl, h⟩

/-- A trace is accepted, under whatever settings, exactly if it records a pipeline. -/
theorem exists_build_iff_isPipeline (t : Trace) (settings : Settings) :
    (∃ s, Scene.build t settings = .ok s) ↔ t.IsPipeline := by
  rw [exists_build_iff, Trace.fault?_eq_none_iff, Dag.exists_ofChildren_iff]
  refine ⟨fun ⟨hchecked, hacyclic⟩ => ⟨hchecked, ?_⟩, fun h => ⟨h.toChecked, ?_⟩⟩
  · rwa [hchecked.child_eq_feeds] at hacyclic
  · rw [h.child_eq_feeds]
    exact h.acyclic

/-- A scene whose tables agree and whose codecs are in order. -/
structure Sound (s : Scene) : Prop where
  lawful : s.pipeline.Lawful
  children_eq : s.dag.children = s.pipeline.children
  sorted : Dag.Sorted s.dag.children s.dag.order

/-- A scene that is built has the tables of the trace, the settings, and the order of the
    codecs. -/
theorem build_eq_ok (h : Scene.build t settings = .ok s) :
    t.Checked ∧ s.pipeline = t.tables ∧ s.settings = settings ∧
      Dag.ofChildren t.tables.children = .ok s.dag := by
  unfold build at h
  split at h
  · cases h
  · rename_i hfault
    split at h
    · cases h
    · rename_i dag hdag
      obtain rfl := Except.ok.inj h
      exact ⟨Trace.fault?_eq_none_iff.1 hfault, rfl, rfl, hdag⟩

theorem size_codecs_of_build (h : Scene.build t settings = .ok s) :
    s.pipeline.codecs.size = t.codecs.length := by
  obtain ⟨-, hpipeline, -, -⟩ := build_eq_ok h
  rw [hpipeline, Trace.size_codecs_tables]

/-- Every scene that is built is sound. -/
theorem sound_of_build (h : Scene.build t settings = .ok s) : s.Sound := by
  obtain ⟨hchecked, hpipeline, -, hdag⟩ := build_eq_ok h
  obtain ⟨hchildren, hsorted, -⟩ := Dag.ofChildren_eq_ok hdag
  refine ⟨hpipeline ▸ hchecked.lawful_tables, ?_, ?_⟩
  · rw [hchildren, hpipeline]
  · rwa [hchildren]

/-- A codec feeds another one if a stream is drawn between them. -/
theorem Sound.child_iff (h : s.Sound) {u v : CodecId} :
    Dag.Child s.dag.children u v ↔ ∃ i, s.pipeline.Draws i u v := by
  rw [h.children_eq, h.lawful.child_iff]

/-- The order names the codecs of the tables. -/
theorem Sound.mem_order (h : s.Sound) {c : CodecId} :
    c ∈ s.dag.order ↔ c.index < s.pipeline.codecs.size := by
  have hsize : s.dag.children.size = s.pipeline.codecs.size := by
    simp [h.children_eq, Pipeline.children]
  rw [h.sorted.mem_iff, hsize]

/-- Only codecs of the tables are owned. -/
theorem codec_lt_of_owner? {x : CodecId} {g : GraphId} (hown : s.pipeline.owner? x = some g) :
    x.index < s.pipeline.codecs.size := by
  obtain ⟨codec, hcodec, -⟩ := Option.bind_eq_some_iff.1 hown
  exact (Array.getElem?_eq_some_iff.1 hcodec).1

/-! ## A pipeline with a join -/

/-- Four codecs, of which the first feeds the last through either of the other two; a
    graph owns one of these. -/
def diamond : Trace where
  codecs := [
    { name := "split", inputs := [⟨0⟩], outputs := [⟨1⟩, ⟨2⟩] },
    { name := "left", inputs := [⟨1⟩], outputs := [⟨3⟩] },
    { name := "right", inputs := [⟨2⟩], outputs := [⟨4⟩] },
    { name := "join", inputs := [⟨3⟩, ⟨4⟩] }]
  streams := List.replicate 5 {}
  graphs := [{ kind := "function", codecs := [⟨1⟩] }]

theorem exists_build_diamond : ∃ s, Scene.build diamond {} = .ok s :=
  exists_build_of_isOk (by decide +kernel)

/-! ## A pipeline with two branches -/

/-- Four codecs, of which the first feeds the second and the third, and the third the
    last.  One graph owns the ends of both branches, which each give a stream that
    nothing consumes. -/
def fork : Trace where
  codecs := [
    { name := "split", inputs := [⟨0⟩], outputs := [⟨1⟩, ⟨2⟩] },
    { name := "short", inputs := [⟨1⟩], outputs := [⟨4⟩] },
    { name := "long", inputs := [⟨2⟩], outputs := [⟨3⟩] },
    { name := "last", inputs := [⟨3⟩], outputs := [⟨5⟩] }]
  streams := List.replicate 6 {}
  graphs := [{ kind := "function", codecs := [⟨1⟩, ⟨3⟩] }]

theorem exists_build_fork : ∃ s, Scene.build fork {} = .ok s :=
  exists_build_of_isOk (by decide +kernel)

/-! ## A chain -/

/-- Three codecs in a row.  Standard graphs own the last two, the first graph the last
    codec. -/
def chain : Trace where
  codecs := [
    { name := "first", inputs := [⟨0⟩], outputs := [⟨1⟩] },
    { name := "second", inputs := [⟨1⟩], outputs := [⟨2⟩] },
    { name := "third", inputs := [⟨2⟩] }]
  streams := List.replicate 3 {}
  graphs := [{ kind := "standard", codecs := [⟨2⟩] }, { kind := "standard", codecs := [⟨1⟩] }]

theorem exists_build_chain : ∃ s, Scene.build chain {} = .ok s :=
  exists_build_of_isOk (by decide +kernel)

/-! ## Pairs in a row -/

/-- Four codecs in a row.  One graph owns the first two, another one the last two, of which
    it lists the last one first. -/
def pairs : Trace where
  codecs := [
    { name := "first", inputs := [⟨0⟩], outputs := [⟨1⟩] },
    { name := "second", inputs := [⟨1⟩], outputs := [⟨2⟩] },
    { name := "third", inputs := [⟨2⟩], outputs := [⟨3⟩] },
    { name := "fourth", inputs := [⟨3⟩] }]
  streams := List.replicate 4 {}
  graphs := [
    { kind := "function", codecs := [⟨0⟩, ⟨1⟩] },
    { kind := "function", codecs := [⟨3⟩, ⟨2⟩] }]

theorem exists_build_pairs : ∃ s, Scene.build pairs {} = .ok s :=
  exists_build_of_isOk (by decide +kernel)

/-! ## A pipeline with a shortcut -/

/-- Five codecs, of which the first feeds the last through the second and the fourth, and
    also through the third alone.  A graph owns the last two. -/
def shortcut : Trace where
  codecs := [
    { name := "split", inputs := [⟨0⟩], outputs := [⟨1⟩, ⟨2⟩] },
    { name := "long", inputs := [⟨1⟩], outputs := [⟨3⟩] },
    { name := "short", inputs := [⟨2⟩], outputs := [⟨5⟩] },
    { name := "inner", inputs := [⟨3⟩], outputs := [⟨4⟩] },
    { name := "join", inputs := [⟨4⟩, ⟨5⟩] }]
  streams := List.replicate 6 {}
  graphs := [{ kind := "function", codecs := [⟨3⟩, ⟨4⟩] }]

theorem exists_build_shortcut : ∃ s, Scene.build shortcut {} = .ok s :=
  exists_build_of_isOk (by decide +kernel)

/-! ## A graph astride of two branches -/

/-- Four codecs, of which the first feeds the second and the third, and the third the
    last.  A standard graph owns the ends of both branches, and another one the codec in
    the middle of the longer branch. -/
def astride : Trace where
  codecs := [
    { name := "split", inputs := [⟨0⟩], outputs := [⟨1⟩, ⟨2⟩] },
    { name := "left", inputs := [⟨1⟩] },
    { name := "right", inputs := [⟨2⟩], outputs := [⟨3⟩] },
    { name := "tail", inputs := [⟨3⟩] }]
  streams := List.replicate 4 {}
  graphs := [
    { kind := "standard", codecs := [⟨1⟩, ⟨3⟩] },
    { kind := "standard", codecs := [⟨2⟩] }]

theorem exists_build_astride :
    ∃ s, Scene.build astride { collapseStandardGraphs := true } = .ok s :=
  exists_build_of_isOk (by decide +kernel)

/-! ## A graph without codecs -/

/-- One codec, and a graph that owns nothing. -/
def hollow : Trace where
  codecs := [{ name := "only", inputs := [⟨0⟩] }]
  streams := [{}]
  graphs := [{ kind := "function" }]

end Scene

end TraceFold
