/-
  TraceFold.Proofs.Trace.RoundTrip

  A trace is read back from what it is written as, provided that its numbers fit into
  their fields and that each share is read back from the way it is written.  As for
  views, a record's members are its slots with the empty ones left out.
-/

import TraceFold.Proofs.Json.Record
import TraceFold.Proofs.Json.RoundTrip

namespace TraceFold

open Json (Slots)

/-! ## Numbers -/

/-- A natural number is read back by a field that is wide enough for it. -/
theorem Json.word?_ofNat_of_lt {bits n : Nat} (h : n < 2 ^ bits) :
    (Json.ofNat n).word? bits = some n := by
  rw [Json.word?_ofNat, if_pos h]

/-- A number fits into a field of some bits in two's complement. -/
def Json.FitsSigned (bits : Nat) (n : Int) : Prop :=
  -2 ^ (bits - 1) ≤ n ∧ n < 2 ^ (bits - 1)

/-- An integer is read back by a field that it fits into. -/
theorem Json.signedWord?_ofInt_of_fits {bits : Nat} {n : Int} (h : Json.FitsSigned bits n) :
    (Json.ofInt n).signedWord? bits = some n :=
  (Json.signedWord?_ofInt bits n).trans (if_pos h)

/-- The number of a codec is read back as the codec if 32 bits hold it. -/
theorem CodecId.ofNumber?_ofNat {c : CodecId} (h : c.index < 2 ^ 32) :
    CodecId.ofNumber? (.ofNat c.index) = some c := by
  rw [CodecId.ofNumber?, Json.word?_ofNat_of_lt h]
  rfl

theorem StreamId.ofNumber?_ofNat {s : StreamId} (h : s.index < 2 ^ 32) :
    StreamId.ofNumber? (.ofNat s.index) = some s := by
  rw [StreamId.ofNumber?, Json.word?_ofNat_of_lt h]
  rfl

/-! ## Local parameters -/

namespace IntParam

structure InRange (p : IntParam) : Prop where
  id : Json.FitsSigned 32 p.id
  value : Json.FitsSigned 64 p.value

/-- The slots of a number parameter, in the order of the fields. -/
def slots (p : IntParam) : Slots :=
  [("paramId", some (.ofInt p.id)), ("paramValue", some (.ofInt p.value))]

/-- A number parameter is read back if its identifier has 32 bits and its value 64. -/
theorem ofJson?_toJson {p : IntParam} (h : p.InRange) : ofJson? p.toJson = some p := by
  have hslots : Json.slots? fields p.toJson = some p.slots :=
    Json.slots?_members (by decide) (show p.slots.map Prod.fst = _ from rfl)
  have hid : p.slots.required "paramId" (Json.signedWord? 32) = some p.id :=
    Json.signedWord?_ofInt_of_fits h.id
  have hvalue : p.slots.required "paramValue" (Json.signedWord? 64) = some p.value :=
    Json.signedWord?_ofInt_of_fits h.value
  rw [ofJson?, hslots, Option.bind_eq_bind, Option.bind_some, hid, hvalue]
  rfl

end IntParam

namespace CopyParam

structure InRange (p : CopyParam) : Prop where
  id : Json.FitsSigned 32 p.id
  size : p.size < 2 ^ 64
  data : ∀ byte ∈ p.data, byte < 2 ^ 8

/-- The slots of a copied parameter, in the order of the fields. -/
def slots (p : CopyParam) : Slots :=
  [("paramId", some (.ofInt p.id)), ("paramSize", some (.ofNat p.size)),
    ("paramData", some (.ofList .ofNat p.data))]

/-- A copied parameter is read back if its numbers fit and all that was copied are bytes. -/
theorem ofJson?_toJson {p : CopyParam} (h : p.InRange) : ofJson? p.toJson = some p := by
  have hslots : Json.slots? fields p.toJson = some p.slots :=
    Json.slots?_members (by decide) (show p.slots.map Prod.fst = _ from rfl)
  have hid : p.slots.required "paramId" (Json.signedWord? 32) = some p.id :=
    Json.signedWord?_ofInt_of_fits h.id
  have hsize : p.slots.required "paramSize" (Json.word? 64) = some p.size :=
    Json.word?_ofNat_of_lt h.size
  have hdata : p.slots.orElse "paramData" (Json.list? (Json.word? 8)) [] = some p.data :=
    (Json.list?_ofList_iff p.data).2 fun byte hbyte => Json.word?_ofNat_of_lt (h.data byte hbyte)
  rw [ofJson?, hslots, Option.bind_eq_bind, Option.bind_some, hid, hsize, hdata]
  rfl

end CopyParam

namespace RefParam

structure InRange (p : RefParam) : Prop where
  id : Json.FitsSigned 32 p.id
  size : p.size < 2 ^ 64

/-- The slots of a parameter recorded by reference, in the order of the fields. -/
def slots (p : RefParam) : Slots :=
  [("paramId", some (.ofInt p.id)), ("paramSize", some (.ofNat p.size))]

theorem ofJson?_toJson {p : RefParam} (h : p.InRange) : ofJson? p.toJson = some p := by
  have hslots : Json.slots? fields p.toJson = some p.slots :=
    Json.slots?_members (by decide) (show p.slots.map Prod.fst = _ from rfl)
  have hid : p.slots.required "paramId" (Json.signedWord? 32) = some p.id :=
    Json.signedWord?_ofInt_of_fits h.id
  have hsize : p.slots.required "paramSize" (Json.word? 64) = some p.size :=
    Json.word?_ofNat_of_lt h.size
  rw [ofJson?, hslots, Option.bind_eq_bind, Option.bind_some, hid, hsize]
  rfl

end RefParam

namespace LocalParams

structure InRange (p : LocalParams) : Prop where
  ints : ∀ q ∈ p.ints, q.InRange
  copies : ∀ q ∈ p.copies, q.InRange
  refs : ∀ q ∈ p.refs, q.InRange

/-- The slots of local parameters, in the order of the fields. -/
def slots (p : LocalParams) : Slots :=
  [("intParams", some (.ofList IntParam.toJson p.ints)),
    ("copyParams", some (.ofList CopyParam.toJson p.copies)),
    ("refParams", some (.ofList RefParam.toJson p.refs))]

/-- Local parameters are read back, list by list, if each of them is. -/
theorem ofJson?_toJson {p : LocalParams} (h : p.InRange) : ofJson? p.toJson = some p := by
  have hslots : Json.slots? fields p.toJson = some p.slots :=
    Json.slots?_members (by decide) (show p.slots.map Prod.fst = _ from rfl)
  have hints : p.slots.orElse "intParams" (Json.list? IntParam.ofJson?) [] = some p.ints :=
    (Json.list?_ofList_iff p.ints).2 fun q hq => IntParam.ofJson?_toJson (h.ints q hq)
  have hcopies : p.slots.orElse "copyParams" (Json.list? CopyParam.ofJson?) [] = some p.copies :=
    (Json.list?_ofList_iff p.copies).2 fun q hq => CopyParam.ofJson?_toJson (h.copies q hq)
  have hrefs : p.slots.orElse "refParams" (Json.list? RefParam.ofJson?) [] = some p.refs :=
    (Json.list?_ofList_iff p.refs).2 fun q hq => RefParam.ofJson?_toJson (h.refs q hq)
  rw [ofJson?, hslots, Option.bind_eq_bind, Option.bind_some, hints, hcopies, hrefs]
  rfl

end LocalParams

/-! ## The tables -/

namespace CodecRecord

structure InRange (c : CodecRecord) : Prop where
  typeId : c.typeId < 2 ^ 32
  headerSize : c.headerSize < 2 ^ 64
  params : c.params.InRange
  inputs : ∀ s ∈ c.inputs, s.index < 2 ^ 32
  outputs : ∀ s ∈ c.outputs, s.index < 2 ^ 32

/-- The slots of a codec, in the order of the fields. -/
def slots (c : CodecRecord) : Slots :=
  [("name", some (.ofString c.name)), ("isStandard", some (.bool c.isStandard)),
    ("typeId", some (.ofNat c.typeId)), ("headerSize", some (.ofNat c.headerSize)),
    ("failureMessage", c.failure.map .ofString), ("localParams", some c.params.toJson),
    ("inputStreamIds", some (.ofList (fun s => .ofNat s.index) c.inputs)),
    ("outputStreamIds", some (.ofList (fun s => .ofNat s.index) c.outputs))]

/-- A codec is written as its slots, without a message if it has none. -/
theorem toJson_eq (c : CodecRecord) : c.toJson = .ofMembers c.slots.members := by
  unfold toJson slots
  cases c.failure <;> rfl

/-- A codec is read back, and a message that was left out is none. -/
theorem ofJson?_toJson {c : CodecRecord} (h : c.InRange) : ofJson? c.toJson = some c := by
  have hslots : Json.slots? fields c.toJson = some c.slots :=
    c.toJson_eq ▸ Json.slots?_members (by decide) rfl
  have htype : c.slots.orElse "typeId" (Json.word? 32) 0 = some c.typeId :=
    Json.word?_ofNat_of_lt h.typeId
  have hsize : c.slots.orElse "headerSize" (Json.word? 64) 0 = some c.headerSize :=
    Json.word?_ofNat_of_lt h.headerSize
  have hfailure : c.slots.orElse "failureMessage" (Json.option? Json.text?) none
      = some c.failure :=
    Slots.orElse_option .ofString rfl fun _ _ => rfl
  have hparams : c.slots.orElse "localParams" LocalParams.ofJson? {} = some c.params :=
    LocalParams.ofJson?_toJson h.params
  have hinputs : c.slots.orElse "inputStreamIds" (Json.list? StreamId.ofNumber?) []
      = some c.inputs :=
    (Json.list?_ofList_iff c.inputs).2 fun s hs => StreamId.ofNumber?_ofNat (h.inputs s hs)
  have houtputs : c.slots.orElse "outputStreamIds" (Json.list? StreamId.ofNumber?) []
      = some c.outputs :=
    (Json.list?_ofList_iff c.outputs).2 fun s hs => StreamId.ofNumber?_ofNat (h.outputs s hs)
  rw [ofJson?, hslots, Option.bind_eq_bind, Option.bind_some, htype, hsize, hfailure, hparams,
    hinputs, houtputs]
  rfl

end CodecRecord

namespace StreamRecord

structure InRange (s : StreamRecord) : Prop where
  sourceHint : ∀ c ∈ s.sourceHint, c.index < 2 ^ 32
  targetHint : ∀ c ∈ s.targetHint, c.index < 2 ^ 32
  typeTag : s.typeTag < 2 ^ 8
  compressedSize : s.compressedSize < 2 ^ 64
  elementCount : s.elementCount < 2 ^ 64
  elementWidth : s.elementWidth < 2 ^ 64
  outputIndex : s.outputIndex < 2 ^ 32

/-- The slots of a stream, in the order of the fields. -/
def slotsWith (write : Float → Json) (s : StreamRecord) : Slots :=
  [("sourceCodec", s.sourceHint.map fun c => .ofNat c.index),
    ("targetCodec", s.targetHint.map fun c => .ofNat c.index),
    ("typeTag", some (.ofNat s.typeTag)), ("compressedSize", some (.ofNat s.compressedSize)),
    ("elementCount", some (.ofNat s.elementCount)),
    ("elementWidth", some (.ofNat s.elementWidth)), ("share", some (write s.share)),
    ("outputIndex", some (.ofNat s.outputIndex))]

/-- A stream is written as its slots, without the hints that it does not have. -/
theorem toJsonWith_eq (write : Float → Json) (s : StreamRecord) :
    s.toJsonWith write = .ofMembers (s.slotsWith write).members := by
  unfold toJsonWith slotsWith
  cases s.sourceHint <;> cases s.targetHint <;> rfl

/-- A stream is read back if its share is read back from the way it is written. -/
theorem ofJson?_toJsonWith {write : Float → Json} {s : StreamRecord} (h : s.InRange)
    (hshare : (write s.share).float? = some s.share) :
    ofJson? (s.toJsonWith write) = some s := by
  have hslots : Json.slots? fields (s.toJsonWith write) = some (s.slotsWith write) :=
    s.toJsonWith_eq write ▸ Json.slots?_members (by decide) rfl
  -- both hints are left out in the same way, so one fact serves them
  have hhint : ∀ {name : String} {hint : Option CodecId}, (∀ c ∈ hint, c.index < 2 ^ 32) →
      (s.slotsWith write).value? name = hint.map (fun c => .ofNat c.index) →
      (s.slotsWith write).orElse name (Json.option? CodecId.ofNumber?) none = some hint :=
    fun hrange hvalue => Slots.orElse_option _ hvalue fun c hc =>
      congrArg (Option.map some) (CodecId.ofNumber?_ofNat (hrange c hc))
  have htag : (s.slotsWith write).orElse "typeTag" (Json.word? 8) 0 = some s.typeTag :=
    Json.word?_ofNat_of_lt h.typeTag
  have hsize : (s.slotsWith write).orElse "compressedSize" (Json.word? 64) 0
      = some s.compressedSize :=
    Json.word?_ofNat_of_lt h.compressedSize
  have hcount : (s.slotsWith write).orElse "elementCount" (Json.word? 64) 0
      = some s.elementCount :=
    Json.word?_ofNat_of_lt h.elementCount
  have hwidth : (s.slotsWith write).orElse "elementWidth" (Json.word? 64) 0
      = some s.elementWidth :=
    Json.word?_ofNat_of_lt h.elementWidth
  have hshare : (s.slotsWith write).orElse "share" Json.float? 0 = some s.share := hshare
  have hindex : (s.slotsWith write).orElse "outputIndex" (Json.word? 32) 0
      = some s.outputIndex :=
    Json.word?_ofNat_of_lt h.outputIndex
  rw [ofJson?, hslots, Option.bind_eq_bind, Option.bind_some, hhint h.sourceHint rfl,
    hhint h.targetHint rfl, htag, hsize, hcount, hwidth, hshare, hindex]
  rfl

end StreamRecord

namespace GraphRecord

structure InRange (g : GraphRecord) : Prop where
  params : g.params.InRange
  codecs : ∀ c ∈ g.codecs, c.index < 2 ^ 32

/-- The slots of a function graph, in the order of the fields. -/
def slots (g : GraphRecord) : Slots :=
  [("graphType", some (.ofString g.kind)), ("name", some (.ofString g.name)),
    ("failureMessage", g.failure.map .ofString), ("localParams", some g.params.toJson),
    ("codecIds", some (.ofList (fun c => .ofNat c.index) g.codecs))]

theorem toJson_eq (g : GraphRecord) : g.toJson = .ofMembers g.slots.members := by
  unfold toJson slots
  cases g.failure <;> rfl

/-- A function graph is read back, with the codecs in the order in which it lists them. -/
theorem ofJson?_toJson {g : GraphRecord} (h : g.InRange) : ofJson? g.toJson = some g := by
  have hslots : Json.slots? fields g.toJson = some g.slots :=
    g.toJson_eq ▸ Json.slots?_members (by decide) rfl
  have hfailure : g.slots.orElse "failureMessage" (Json.option? Json.text?) none
      = some g.failure :=
    Slots.orElse_option .ofString rfl fun _ _ => rfl
  have hparams : g.slots.orElse "localParams" LocalParams.ofJson? {} = some g.params :=
    LocalParams.ofJson?_toJson h.params
  have hcodecs : g.slots.orElse "codecIds" (Json.list? CodecId.ofNumber?) [] = some g.codecs :=
    (Json.list?_ofList_iff g.codecs).2 fun c hc => CodecId.ofNumber?_ofNat (h.codecs c hc)
  rw [ofJson?, hslots, Option.bind_eq_bind, Option.bind_some, hfailure, hparams, hcodecs]
  rfl

end GraphRecord

namespace Trace

/-- Every number of a trace fits into its field. -/
structure InRange (t : Trace) : Prop where
  codecs : ∀ c ∈ t.codecs, c.InRange
  streams : ∀ s ∈ t.streams, s.InRange
  graphs : ∀ g ∈ t.graphs, g.InRange

/-- The slots of a trace, in the order of the fields. -/
def slotsWith (write : Float → Json) (t : Trace) : Slots :=
  [("codecs", some (.ofList CodecRecord.toJson t.codecs)),
    ("streams", some (.ofList (StreamRecord.toJsonWith write) t.streams)),
    ("graphs", some (.ofList GraphRecord.toJson t.graphs))]

/-- A trace is read back if its numbers fit into their fields and all its shares are read back. -/
theorem ofJson?_toJsonWith {write : Float → Json} {t : Trace} (h : t.InRange)
    (hshare : ∀ s ∈ t.streams, (write s.share).float? = some s.share) :
    ofJson? (t.toJsonWith write) = some t := by
  have hslots : Json.slots? fields (t.toJsonWith write) = some (t.slotsWith write) :=
    Json.slots?_members (by decide) (show (t.slotsWith write).map Prod.fst = _ from rfl)
  have hcodecs : (t.slotsWith write).orElse "codecs" (Json.list? CodecRecord.ofJson?) []
      = some t.codecs :=
    (Json.list?_ofList_iff t.codecs).2 fun c hc => CodecRecord.ofJson?_toJson (h.codecs c hc)
  have hstreams : (t.slotsWith write).orElse "streams" (Json.list? StreamRecord.ofJson?) []
      = some t.streams :=
    (Json.list?_ofList_iff t.streams).2 fun s hs =>
      StreamRecord.ofJson?_toJsonWith (h.streams s hs) (hshare s hs)
  have hgraphs : (t.slotsWith write).orElse "graphs" (Json.list? GraphRecord.ofJson?) []
      = some t.graphs :=
    (Json.list?_ofList_iff t.graphs).2 fun g hg => GraphRecord.ofJson?_toJson (h.graphs g hg)
  rw [ofJson?, hslots, Option.bind_eq_bind, Option.bind_some, hcodecs, hstreams, hgraphs]
  rfl

end Trace

end TraceFold
