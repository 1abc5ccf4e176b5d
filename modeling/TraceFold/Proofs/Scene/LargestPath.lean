/-
  TraceFold.Proofs.Scene.LargestPath

  The path of the largest streams, from the root to a codec without outputs.  Out of each
  codec it takes the first of the largest outputs (`TakesLargest`).  The path never comes to
  a codec twice, since every stream runs forwards in the order of the codecs; so following it
  with a guard against that, and against running out of steps, gives the same path
  (`pathFrom?_eq_some`).
-/

import TraceFold.Proofs.Folding.Step
import TraceFold.Proofs.Lists
import TraceFold.Proofs.Scene.NormalForm

namespace TraceFold

/-! ## The first of the largest -/

theorem firstLargest_eq_none {l : List (Stream × CodecId)} : firstLargest l = none ↔ l = [] := by
  cases l with
  | nil => simp [firstLargest]
  | cons x rest =>
    refine iff_of_false (fun hnone => ?_) (List.cons_ne_nil x rest)
    unfold firstLargest at hnone
    split at hnone
    · cases hnone
    · split at hnone <;> cases hnone

/-- What stands before the first of the largest streams is smaller, and what stands behind it
    is no larger. -/
theorem firstLargest_eq_some {l : List (Stream × CodecId)} {best : Stream × CodecId}
    (h : firstLargest l = some best) : ∃ before after, l = before ++ best :: after ∧
      (∀ y ∈ before, y.1.compressedSize < best.1.compressedSize) ∧
      ∀ y ∈ after, y.1.compressedSize ≤ best.1.compressedSize := by
  induction l generalizing best with
  | nil => cases h
  | cons x rest ih =>
    unfold firstLargest at h
    split at h
    · -- there is nothing behind the head
      rename_i hnone
      obtain rfl := Option.some.inj h
      obtain rfl := firstLargest_eq_none.1 hnone
      exact ⟨[], [], rfl, by simp, by simp⟩
    · rename_i later hlater
      obtain ⟨before, after, rfl, hbefore, hafter⟩ := ih hlater
      split at h
      · -- the head is smaller than the best one behind it
        rename_i hlt
        obtain rfl := Option.some.inj h
        exact ⟨x :: before, after, rfl, List.forall_mem_cons.2 ⟨hlt, hbefore⟩, hafter⟩
      · rename_i hge
        obtain rfl := Option.some.inj h
        have hle : later.1.compressedSize ≤ x.1.compressedSize := Nat.le_of_not_lt hge
        refine ⟨[], before ++ later :: after, rfl, by simp, fun y hy => ?_⟩
        rcases List.mem_append.1 hy with hy | hy
        · exact (Nat.le_of_lt (hbefore y hy)).trans hle
        · rcases List.mem_cons.1 hy with rfl | hy
          · exact hle
          · exact (hafter y hy).trans hle

/-! ## What a path takes -/

namespace Pipeline

/-- The compressed size of a stream, zero if there is no such stream. -/
def streamSize (p : Pipeline) (i : StreamId) : Nat :=
  ((p.stream? i).map (·.compressedSize)).getD 0

/-- Out of a codec goes its first output of the largest size, and it leads to another one. -/
structure TakesLargest (p : Pipeline) (u : CodecId) (i : StreamId) (v : CodecId) : Prop where
  draws : p.Draws i u v
  mem_outputs : i ∈ p.outputsOf u
  largest : ∀ j ∈ p.outputsOf u, p.streamSize j ≤ p.streamSize i
  first : ∃ before after, p.outputsOf u = before ++ i :: after ∧
    ∀ j ∈ before, p.streamSize j < p.streamSize i

/-- A path from a codec on that takes the largest outputs to the end. -/
inductive LargestFrom (p : Pipeline) : CodecId → List PathStep → Prop
  | stop {c : CodecId} : c.index < p.codecs.size → p.outputsOf c = [] →
      LargestFrom p c [⟨c, none⟩]
  | step {u v : CodecId} {i : StreamId} {path : List PathStep} : p.TakesLargest u i v →
      LargestFrom p v path → LargestFrom p u (⟨u, some i⟩ :: path)

/-- The path from a codec on, with a guard: it gives nothing as soon as it runs out of steps
    or comes to a codec without a place in the table, or to one that it has visited. -/
def pathFrom? (p : Pipeline) : Nat → List CodecId → CodecId → Option (List PathStep)
  | 0, _, _ => none
  | steps + 1, visited, c => do
    let codec ← p.codec? c
    if c ∈ visited then none
    else match firstLargest (p.drawnOutputs codec) with
      | none => some [⟨c, none⟩]
      | some (stream, target) => do
        let path ← p.pathFrom? steps (c :: visited) target
        some (⟨c, some stream.id⟩ :: path)

section Unfold

variable {p : Pipeline} {c v : CodecId} {codec : Codec} {x : Stream} {steps : Nat}
  (hcodec : p.codec? c = some codec)
include hcodec

/-- A codec without outputs ends the path. -/
theorem pathFrom_of_none (hnone : firstLargest (p.drawnOutputs codec) = none) :
    p.pathFrom (steps + 1) c = [⟨c, none⟩] := by
  simp only [pathFrom, hcodec, hnone]

/-- From any other codec, the path goes on with the first of the largest outputs. -/
theorem pathFrom_of_some (hbest : firstLargest (p.drawnOutputs codec) = some (x, v)) :
    p.pathFrom (steps + 1) c = ⟨c, some x.id⟩ :: p.pathFrom steps v := by
  simp only [pathFrom, hcodec, hbest]

theorem pathFrom?_of_none {visited : List CodecId} (hnew : c ∉ visited)
    (hnone : firstLargest (p.drawnOutputs codec) = none) :
    p.pathFrom? (steps + 1) visited c = some [⟨c, none⟩] := by
  simp only [pathFrom?, hcodec, Option.bind_eq_bind, Option.bind_some, if_neg hnew, hnone]

theorem pathFrom?_of_some {visited : List CodecId} (hnew : c ∉ visited)
    (hbest : firstLargest (p.drawnOutputs codec) = some (x, v)) :
    p.pathFrom? (steps + 1) visited c
      = (p.pathFrom? steps (c :: visited) v).map (⟨c, some x.id⟩ :: ·) := by
  simp only [pathFrom?, hcodec, Option.bind_eq_bind, Option.bind_some, if_neg hnew, hbest,
    Option.map_eq_bind, Function.comp_def]

end Unfold

end Pipeline

/-! ## Single steps -/

namespace Scene

open Pipeline

variable {s : Scene} {c u v : CodecId} {codec : Codec} {x : Stream} {steps : Nat}
  {visited : List CodecId} {path : List PathStep}

namespace Sound

variable (h : s.Sound)
include h

/-- The order names no more codecs than there are. -/
theorem length_order_le : s.dag.order.length ≤ s.pipeline.codecs.size := by
  have hsub : s.dag.order ⊆ s.pipeline.codecIds := fun c hc =>
    List.mem_map.2 ⟨c.index, List.mem_range.2 (h.mem_order.1 hc), rfl⟩
  have hle := (List.subperm_of_subset h.sorted.nodup hsub).length_le
  rwa [codecIds, List.length_map, List.length_range] at hle

/-- The outputs that are drawn are all outputs, in their order. -/
theorem map_drawnOutputs (hcodec : s.pipeline.codec? c = some codec) :
    (s.pipeline.drawnOutputs codec).map (·.1.id) = s.pipeline.outputsOf c := by
  have houtputs : s.pipeline.outputsOf c = codec.outputs := by simp [outputsOf, hcodec]
  rw [houtputs, drawnOutputs]
  refine map_filterMap_eq fun i hi => ?_
  obtain ⟨v, y, hy, hends⟩ := (h.lawful.mem_outputs c codec i hcodec).1 hi
  refine ⟨(y, v), ?_, h.lawful.stream_id i y hy⟩
  simp [hy, hends]

/-- An output that is drawn is the stream that the table has under its number. -/
theorem drawn_of_mem (hcodec : s.pipeline.codec? c = some codec)
    (hx : (x, v) ∈ s.pipeline.drawnOutputs codec) :
    s.pipeline.Draws x.id c v ∧ s.pipeline.streamSize x.id = x.compressedSize := by
  obtain ⟨i, hi, hstream, u, hends⟩ := mem_drawnOutputs.1 hx
  obtain rfl := h.lawful.stream_id i x hstream
  obtain ⟨w, hw⟩ := (h.lawful.mem_outputs c codec _ hcodec).1 hi
  have hdraws : s.pipeline.Draws x.id u v := ⟨x, hstream, hends⟩
  obtain ⟨rfl, rfl⟩ := hw.unique hdraws
  refine ⟨hdraws, ?_⟩
  simp [streamSize, hstream]

theorem outputs_eq_nil (hcodec : s.pipeline.codec? c = some codec)
    (hnone : firstLargest (s.pipeline.drawnOutputs codec) = none) :
    s.pipeline.outputsOf c = [] := by
  rw [← h.map_drawnOutputs hcodec, firstLargest_eq_none.1 hnone, List.map_nil]

/-- The stream that is followed is the first of the largest outputs. -/
theorem takesLargest (hcodec : s.pipeline.codec? c = some codec)
    (hbest : firstLargest (s.pipeline.drawnOutputs codec) = some (x, v)) :
    s.pipeline.TakesLargest c x.id v := by
  obtain ⟨before, after, hsplit, hbefore, hafter⟩ := firstLargest_eq_some hbest
  have hmem : ∀ y ∈ before ++ (x, v) :: after, y ∈ s.pipeline.drawnOutputs codec :=
    fun y hy => hsplit ▸ hy
  have hsize : ∀ y ∈ before ++ (x, v) :: after,
      s.pipeline.streamSize y.1.id = y.1.compressedSize :=
    fun y hy => (h.drawn_of_mem hcodec (hmem y hy)).2
  have hx : (x, v) ∈ before ++ (x, v) :: after :=
    List.mem_append_right before List.mem_cons_self
  have houtputs : s.pipeline.outputsOf c
      = before.map (·.1.id) ++ x.id :: after.map (·.1.id) := by
    rw [← h.map_drawnOutputs hcodec, hsplit, List.map_append, List.map_cons]
  -- of equally large outputs the first one is followed, so those before it are smaller
  have hsmaller : ∀ j ∈ before.map (·.1.id),
      s.pipeline.streamSize j < s.pipeline.streamSize x.id := by
    intro j hj
    obtain ⟨y, hy, rfl⟩ := List.mem_map.1 hj
    rw [hsize y (List.mem_append_left _ hy), hsize (x, v) hx]
    exact hbefore y hy
  refine ⟨(h.drawn_of_mem hcodec (hmem _ hx)).1, ?_, fun j hj => ?_, _, _, houtputs, hsmaller⟩
  · rw [houtputs]
    exact List.mem_append_right _ List.mem_cons_self
  · rw [houtputs] at hj
    rcases List.mem_append.1 hj with hj | hj
    · exact Nat.le_of_lt (hsmaller j hj)
    · rcases List.mem_cons.1 hj with rfl | hj
      · exact Nat.le_refl _
      · obtain ⟨y, hy, rfl⟩ := List.mem_map.1 hj
        have hy' : y ∈ before ++ (x, v) :: after :=
          List.mem_append_right before (List.mem_cons_of_mem _ hy)
        rw [hsize y hy', hsize (x, v) hx]
        exact hafter y hy

/-! ## A whole path -/

/-- No guard ever fails, if the codecs that have been visited are above the codec and no fewer
    steps are left than codecs from there on.  The guarded path is then the path itself, and
    it takes the largest outputs to the end. -/
theorem pathFrom?_eq_some (hc : c.index < s.pipeline.codecs.size)
    (hvisited : ∀ u ∈ visited, s.Below u c)
    (hsteps : s.dag.order.length ≤ s.dag.order.idxOf c + steps) :
    s.pipeline.pathFrom? steps visited c = some (s.pipeline.pathFrom steps c) ∧
      s.pipeline.LargestFrom c (s.pipeline.pathFrom steps c) := by
  induction steps generalizing visited c with
  | zero =>
    -- every codec has a place in the order, so steps are left when the path comes to it
    have hplace : s.dag.order.idxOf c < s.dag.order.length :=
      List.idxOf_lt_length_of_mem (h.mem_order.2 hc)
    omega
  | succ steps ih =>
    have hcodec : s.pipeline.codec? c = some s.pipeline.codecs[c.index] :=
      Array.getElem?_eq_getElem hc
    have hnew : c ∉ visited := fun hmem => h.ne_of_below (hvisited c hmem) rfl
    cases hbest : firstLargest (s.pipeline.drawnOutputs s.pipeline.codecs[c.index]) with
    | none =>
      rw [pathFrom?_of_none hcodec hnew hbest, pathFrom_of_none hcodec hbest]
      exact ⟨rfl, .stop hc (h.outputs_eq_nil hcodec hbest)⟩
    | some best =>
      obtain ⟨x, v⟩ := best
      have htakes := h.takesLargest hcodec hbest
      have hchild : Dag.Child s.dag.children c v := h.child_iff.2 ⟨x.id, htakes.draws⟩
      have hbelow : ∀ u ∈ c :: visited, s.Below u v :=
        List.forall_mem_cons.2 ⟨.single hchild, fun u hu => (hvisited u hu).tail hchild⟩
      have hbefore : s.dag.order.idxOf c < s.dag.order.idxOf v := h.sorted.before c v hchild
      have hleft : s.dag.order.length ≤ s.dag.order.idxOf v + steps := by omega
      obtain ⟨hpath, hlargest⟩ := ih (h.lawful.target_known x.id c v htakes.draws) hbelow hleft
      rw [pathFrom?_of_some hcodec hnew hbest, pathFrom_of_some hcodec hbest, hpath]
      exact ⟨rfl, .step htakes hlargest⟩

end Sound

end Scene

namespace Pipeline

variable {p : Pipeline} {c : CodecId} {path : List PathStep}

/-- From one step of a path to the next. -/
def FollowedBy (p : Pipeline) (a b : PathStep) : Prop :=
  ∃ i, a.via = some i ∧ p.TakesLargest a.codec i b.codec

namespace LargestFrom

theorem head?_eq (h : p.LargestFrom c path) : (path.head?).map (·.codec) = some c := by
  cases h <;> rfl

/-- Each step is followed by the target of its stream. -/
theorem isChain (h : p.LargestFrom c path) : path.IsChain p.FollowedBy := by
  induction h with
  | stop _ _ => exact .singleton _
  | @step u v i path htakes hpath ih =>
    refine List.isChain_cons.2 ⟨fun next hnext => ⟨i, rfl, ?_⟩, ih⟩
    have hhead := hpath.head?_eq
    rw [Option.mem_def.1 hnext, Option.map_some, Option.some.injEq] at hhead
    rw [hhead]
    exact htakes

/-- Only the last step takes no stream out, and its codec has no outputs. -/
theorem exists_last (h : p.LargestFrom c path) : ∃ inner last, path = inner ++ [⟨last, none⟩] ∧
    (∀ a ∈ inner, a.via ≠ none) ∧ last.index < p.codecs.size ∧ p.outputsOf last = [] := by
  induction h with
  | @stop c hc hnil => exact ⟨[], c, rfl, by simp, hc, hnil⟩
  | @step u _ i _ _ _ ih =>
    obtain ⟨inner, last, rfl, hvia, hlast⟩ := ih
    refine ⟨⟨u, some i⟩ :: inner, last, rfl, ?_, hlast⟩
    exact List.forall_mem_cons.2 ⟨by simp, hvia⟩

end LargestFrom

/-- A path of the largest streams, from the root to a codec without outputs. -/
structure LargestRoute (p : Pipeline) (path : List PathStep) : Prop where
  head?_eq : path.head?.map (·.codec) = some .root
  nodup : (path.map (·.codec)).Nodup
  exists_last : ∃ inner last, path = inner ++ [⟨last, none⟩] ∧ (∀ a ∈ inner, a.via ≠ none) ∧
    last.index < p.codecs.size ∧ p.outputsOf last = []
  isChain : path.IsChain p.FollowedBy
  /-- No guard ever ends it early. -/
  unguarded : p.pathFrom? p.codecs.size [] .root = some path

end Pipeline

namespace Scene

open Pipeline

variable {s : Scene} {c : CodecId} {path : List PathStep}

/-- A path that takes the largest outputs from a child on comes to codecs below only. -/
theorem Sound.below_of_mem (h : s.Sound) {u : CodecId} (hpath : s.pipeline.LargestFrom c path)
    (hchild : Dag.Child s.dag.children u c) : ∀ a ∈ path, s.Below u a.codec := by
  induction hpath generalizing u with
  | stop _ _ => exact List.forall_mem_singleton.2 (.single hchild)
  | @step c v i path htakes _ ih =>
    have hnext : Dag.Child s.dag.children c v := h.child_iff.2 ⟨i, htakes.draws⟩
    exact List.forall_mem_cons.2 ⟨.single hchild, fun a ha => .head hchild (ih hnext a ha)⟩

/-- The path visits no codec twice, as each one is below those before it. -/
theorem Sound.nodup_codecs (h : s.Sound) (hpath : s.pipeline.LargestFrom c path) :
    (path.map (·.codec)).Nodup := by
  induction hpath with
  | stop _ _ => exact List.nodup_singleton _
  | @step u v i path htakes hpath ih =>
    refine List.nodup_cons.2 ⟨fun hmem => ?_, ih⟩
    obtain ⟨a, ha, heq⟩ := List.mem_map.1 hmem
    -- the codec would be below itself
    have hbelow := h.below_of_mem hpath (h.child_iff.2 ⟨i, htakes.draws⟩) a ha
    exact h.ne_of_below hbelow heq

/-- The path of the largest streams of a pipeline leads from the root to a codec without
    outputs, takes the first of the largest outputs on the way, and visits no codec twice. -/
theorem largestRoute_largestPath {t : Trace} {settings : Settings}
    (hbuild : Scene.build t settings = .ok s) :
    s.pipeline.LargestRoute s.pipeline.largestPath := by
  have h := sound_of_build hbuild
  have hroot : CodecId.root.index < s.pipeline.codecs.size := h.lawful.root_known
  have hsteps : s.dag.order.length ≤ s.dag.order.idxOf .root + s.pipeline.codecs.size :=
    Nat.le_add_left_of_le h.length_order_le
  have hvisited : ∀ u ∈ ([] : List CodecId), s.Below u .root := by simp
  obtain ⟨hguarded, hlargest⟩ := h.pathFrom?_eq_some hroot hvisited hsteps
  exact ⟨hlargest.head?_eq, h.nodup_codecs hlargest, hlargest.exists_last, hlargest.isChain,
    hguarded⟩

/-- Four codecs.  Of the outputs of the first one, one is listed twice, as large as the one
    behind it, and a larger one is not consumed. -/
def weighted : Trace where
  codecs := [
    { name := "split", inputs := [⟨0⟩], outputs := [⟨1⟩, ⟨5⟩, ⟨2⟩, ⟨2⟩, ⟨3⟩] },
    { name := "small", inputs := [⟨1⟩] },
    { name := "large", inputs := [⟨2⟩], outputs := [⟨4⟩] },
    { name := "last", inputs := [⟨3⟩, ⟨4⟩] }]
  streams := [{}, { compressedSize := 4 }, { compressedSize := 7 }, { compressedSize := 7 },
    { compressedSize := 1 }, { compressedSize := 9 }]
  graphs := []

/-- Of two streams of the largest size, the first one is followed. -/
theorem largestRoute_weighted : ∃ s, Scene.build weighted {} = .ok s ∧
    s.pipeline.LargestRoute s.pipeline.largestPath ∧
    s.pipeline.outputsOf .root = [⟨1⟩, ⟨2⟩, ⟨2⟩, ⟨3⟩] ∧
    s.pipeline.largestPath = [⟨⟨0⟩, some ⟨2⟩⟩, ⟨⟨2⟩, some ⟨4⟩⟩, ⟨⟨3⟩, none⟩] := by
  have hrun : (Scene.build weighted {}).toOption.any (fun s =>
      s.pipeline.outputsOf .root = [⟨1⟩, ⟨2⟩, ⟨2⟩, ⟨3⟩] &&
        s.pipeline.largestPath = [⟨⟨0⟩, some ⟨2⟩⟩, ⟨⟨2⟩, some ⟨4⟩⟩, ⟨⟨3⟩, none⟩]) = true := by
    decide +kernel
  obtain ⟨s, hs, hq⟩ := exists_of_any_toOption hrun
  simp only [Bool.and_eq_true, decide_eq_true_eq] at hq
  exact ⟨s, hs, largestRoute_largestPath hs, hq⟩

end Scene

end TraceFold
