/-
  TraceFold.Proofs.Trace.Spelling

  The spellings of a trace.  Each record of the format has its rules here: the names of
  every field, how its value is read and what it is where the field is left out.  The
  readers do what the rules say, so however a record is spelled, it is read alike, on
  every level of a trace; and what a trace is written as is one of its spellings.
-/

import Mathlib.Logic.Relation
import TraceFold.Proofs.Json.Spelling
import TraceFold.Proofs.Trace.RoundTrip

namespace TraceFold

open Json (Rule Reads Respelled Doubled)

/-! ## Local parameters -/

namespace IntParam

def rules : List Rule :=
  [.needed ⟨"paramId", none⟩ (Json.signedWord? 32),
    .needed ⟨"paramValue", none⟩ (Json.signedWord? 64)]

/-- The fields of a number parameter are both needed. -/
theorem reads : Reads rules ofJson? where
  distinct := by decide
  lawful := by simp [rules, Rule.lawful_needed]
  exists_make := ⟨mk, fun _ => rfl⟩

end IntParam

namespace CopyParam

def rules : List Rule :=
  [.needed ⟨"paramId", none⟩ (Json.signedWord? 32), .needed ⟨"paramSize", none⟩ (Json.word? 64),
    .optional ⟨"paramData", none⟩ (Json.list? (Json.word? 8)) []]

theorem reads : Reads rules ofJson? where
  distinct := by decide
  lawful := by simp [rules, Rule.lawful_needed, Rule.lawful_optional]
  exists_make := ⟨mk, fun _ => rfl⟩

end CopyParam

namespace RefParam

def rules : List Rule :=
  [.needed ⟨"paramId", none⟩ (Json.signedWord? 32), .needed ⟨"paramSize", none⟩ (Json.word? 64)]

theorem reads : Reads rules ofJson? where
  distinct := by decide
  lawful := by simp [rules, Rule.lawful_needed]
  exists_make := ⟨mk, fun _ => rfl⟩

end RefParam

namespace LocalParams

def rules : List Rule :=
  [.records ⟨"intParams", none⟩ IntParam.ofJson? IntParam.rules,
    .records ⟨"copyParams", none⟩ CopyParam.ofJson? CopyParam.rules,
    .records ⟨"refParams", none⟩ RefParam.ofJson? RefParam.rules]

theorem reads : Reads rules ofJson? where
  distinct := by decide
  lawful := by
    simp [rules, Rule.lawful_records IntParam.reads, Rule.lawful_records CopyParam.reads,
      Rule.lawful_records RefParam.reads]
  exists_make := ⟨mk, fun _ => rfl⟩

end LocalParams

/-! ## The tables -/

namespace CodecRecord

def rules : List Rule :=
  [.needed ⟨"name", none⟩ Json.text?, .optional ⟨"isStandard", "cType"⟩ Json.bool? false,
    .optional ⟨"typeId", "cID"⟩ (Json.word? 32) 0,
    .optional ⟨"headerSize", "cHeaderSize"⟩ (Json.word? 64) 0,
    .optional ⟨"failureMessage", "cFailureString"⟩ (Json.option? Json.text?) none,
    .record ⟨"localParams", "cLocalParams"⟩ LocalParams.ofJson? {} LocalParams.rules,
    .optional ⟨"inputStreamIds", "inputStreams"⟩ (Json.list? StreamId.ofNumber?) [],
    .optional ⟨"outputStreamIds", "outputStreams"⟩ (Json.list? StreamId.ofNumber?) []]

/-- Of a codec, only the name is needed; all else may be left out. -/
theorem reads : Reads rules ofJson? where
  distinct := by decide
  lawful := by
    simp [rules, Rule.lawful_needed, Rule.lawful_optional, Rule.lawful_record LocalParams.reads]
  exists_make := ⟨mk, fun _ => rfl⟩

end CodecRecord

namespace StreamRecord

def rules : List Rule :=
  [.optional ⟨"sourceCodec", none⟩ (Json.option? CodecId.ofNumber?) none,
    .optional ⟨"targetCodec", none⟩ (Json.option? CodecId.ofNumber?) none,
    .optional ⟨"typeTag", "type"⟩ (Json.word? 8) 0,
    .optional ⟨"compressedSize", "cSize"⟩ (Json.word? 64) 0,
    .optional ⟨"elementCount", "numElts"⟩ (Json.word? 64) 0,
    .optional ⟨"elementWidth", "eltWidth"⟩ (Json.word? 64) 0,
    .optional ⟨"share", none⟩ Json.float? 0,
    .optional ⟨"outputIndex", "outputIdx"⟩ (Json.word? 32) 0]

/-- Of a stream, any field may be left out. -/
theorem reads : Reads rules ofJson? where
  distinct := by decide
  lawful := by simp [rules, Rule.lawful_optional]
  exists_make := ⟨mk, fun _ => rfl⟩

end StreamRecord

namespace GraphRecord

def rules : List Rule :=
  [.needed ⟨"graphType", "gType"⟩ Json.text?, .optional ⟨"name", "gName"⟩ Json.text? "",
    .optional ⟨"failureMessage", "gFailureString"⟩ (Json.option? Json.text?) none,
    .record ⟨"localParams", "gLocalParams"⟩ LocalParams.ofJson? {} LocalParams.rules,
    .optional ⟨"codecIds", "codecIDs"⟩ (Json.list? CodecId.ofNumber?) []]

theorem reads : Reads rules ofJson? where
  distinct := by decide
  lawful := by
    simp [rules, Rule.lawful_needed, Rule.lawful_optional, Rule.lawful_record LocalParams.reads]
  exists_make := ⟨mk, fun _ => rfl⟩

end GraphRecord

namespace Trace

def rules : List Rule :=
  [.records ⟨"codecs", none⟩ CodecRecord.ofJson? CodecRecord.rules,
    .records ⟨"streams", none⟩ StreamRecord.ofJson? StreamRecord.rules,
    .records ⟨"graphs", none⟩ GraphRecord.ofJson? GraphRecord.rules]

/-- A trace is three lists of records, each of which may be left out. -/
theorem reads : Reads rules ofJson? where
  distinct := by decide
  lawful := by
    simp [rules, Rule.lawful_records CodecRecord.reads, Rule.lawful_records StreamRecord.reads,
      Rule.lawful_records GraphRecord.reads]
  exists_make := ⟨mk, fun _ => rfl⟩

/-- However a trace is respelled, it is read as the same trace, and a trace in which a field
    is given twice is refused.  What a trace is written as is read as that trace, if the
    shares, which are finite, are read back from what they are written as. -/
theorem spelling_independent :
    (∀ j j' t, Relation.ReflTransGen (Respelled rules) j j' →
      ofJson? j = some t → ofJson? j' = some t) ∧
    (∀ j, Doubled rules j → ofJson? j = none) ∧
    ∀ (write : Float → Json) (t : Trace), t.InRange →
      (∀ s ∈ t.streams, s.share.isFinite) →
      (∀ s ∈ t.streams, s.share.isFinite → (write s.share).float? = some s.share) →
      parse? (t.toJsonWith write).compact = some t := by
  refine ⟨fun j j' t hspell hread => ?_, fun j => reads.eq_none_of_doubled, ?_⟩
  -- one change after the other
  · induction hspell with
    | refl => exact hread
    | tail _ hstep ih => exact (reads.eq_of_respelled hstep).trans ih
  · intro write t hrange hfinite hexact
    rw [parse?, Json.parse?_compact]
    exact ofJson?_toJsonWith hrange fun s hs => hexact s hs (hfinite s hs)

/-- A double with one place behind the point. -/
def writeTenths (x : Float) : Json :=
  match Number.Binary64.ofFloat x with
  | .finite negative significand power =>
    .number { negative, digits := Number.unitsOf 1 significand power, places := 1 }
  | _ => .null

/-- A stream's tag goes by either name, behind a member that means nothing, but not by both
    names; and a share of an eighth is read back from its text. -/
theorem spelling_independent_eighth :
    ofJson? (.ofMembers [("note", .null),
      ("streams", .array [.ofMembers [("type", .ofNat 1)]])])
      = some { streams := [{ typeTag := 1 }] } ∧
    ofJson? (.ofMembers [("streams",
      .array [.ofMembers [("type", .ofNat 1), ("typeTag", .ofNat 1)]])]) = none ∧
    parse? (toJsonWith writeTenths { streams := [{ typeTag := 1, share := 12.5 }] }).compact
      = some { streams := [{ typeTag := 1, share := 12.5 }] } := by
  obtain ⟨hspell, hdoubled, hwritten⟩ := spelling_independent
  have hstreams : Rule.records ⟨"streams", none⟩ StreamRecord.ofJson? StreamRecord.rules ∈ rules :=
    .tail _ (.head _)
  have htag : Rule.optional ⟨"typeTag", "type"⟩ (Json.word? 8) 0 ∈ StreamRecord.rules :=
    .tail _ (.tail _ (.head _))
  refine ⟨?_, ?_, ?_⟩
  · have hrenamed : Respelled rules
        (.ofMembers [("streams", .array [.ofMembers [("typeTag", .ofNat 1)]])])
        (.ofMembers [("streams", .array [.ofMembers [("type", .ofNat 1)]])]) :=
      .inMember hstreams rfl (.intro (i := 0) rfl (.renamed htag rfl rfl))
    have hnoted : Respelled rules
        (.ofMembers [("streams", .array [.ofMembers [("type", .ofNat 1)]])])
        (.ofMembers [("note", .null), ("streams", .array [.ofMembers [("type", .ofNat 1)]])]) :=
      .unknown (by decide)
    exact hspell _ _ _ (.tail (.single hrenamed) hnoted) rfl
  · refine hdoubled _ (.inMember hstreams rfl (.head _) (.intro (.head _) ?_))
    exact .here htag rfl rfl (.refl _)
  · refine hwritten _ _ ⟨nofun, List.forall_mem_singleton.2 ?_, nofun⟩
      (List.forall_mem_singleton.2 ?_) (List.forall_mem_singleton.2 fun _ => rfl)
    · exact ⟨nofun, nofun, by decide, by decide, by decide, by decide, by decide⟩
    · decide +kernel

end Trace

end TraceFold
