/-
  TraceFold.Proofs.Json.Spelling

  The ways in which one record can be written.  A `Rule` says of a field how its value is
  read and what the value is where the field is left out.  A reader of a record is then
  what the rules give, put together, and it sees of an object or an array nothing but the
  value that each rule gets: what keeps these values keeps what is read.  So the order of
  the members, which name a field goes by, members of no field, members that say what
  would hold without them, and whether there are names at all make no difference; a field
  that is given twice is refused.  Records stand inside records, so a rule also says what
  may change inside its value.
-/

import TraceFold.Proofs.Json.Record

namespace TraceFold.Json

variable {α : Type}

/-! ## Rules -/

/-- How a field of a record is read, and how its value may be written otherwise. -/
structure Rule where
  field : Field
  Value : Type
  read? : Json → Option Value
  /-- The value where the field is left out, if it may be. -/
  fallback? : Option Value
  /-- One change inside the way a value is written. -/
  respelled : Json → Json → Prop
  /-- Inside the value a field is given twice. -/
  doubled : Json → Prop

namespace Rule

/-- A field that has to be given. -/
def needed (field : Field) (read? : Json → Option α) : Rule :=
  ⟨field, α, read?, none, fun _ _ => False, fun _ => False⟩

/-- A field with a value of its own where it is left out. -/
def optional (field : Field) (read? : Json → Option α) (fallback : α) : Rule :=
  ⟨field, α, read?, some fallback, fun _ _ => False, fun _ => False⟩

/-- The value of a field that is given so, or left out. -/
def value? (r : Rule) (given? : Option Json) : Option r.Value :=
  match r.fallback? with
  | none => given?.bind r.read?
  | some fallback =>
    match given? with
    | none => some fallback
    | some j => r.read? j

@[simp]
theorem value?_none (r : Rule) : r.value? none = r.fallback? := by
  unfold value?
  split <;> simp_all

@[simp]
theorem value?_some (r : Rule) (j : Json) : r.value? (some j) = r.read? j := by
  unfold value?
  split <;> rfl

/-- A value says what holds where the field is left out. -/
def IsDefault (r : Rule) (j : Json) : Prop :=
  r.fallback?.isSome ∧ r.read? j = r.fallback?

/-- The value that slots hold for the field. -/
def valueIn? (r : Rule) (slots : Slots) : Option r.Value :=
  r.value? (slots.value? r.field.name)

/-- What may change inside a value leaves it as it is, and no value has a field given
    twice in it. -/
structure Lawful (r : Rule) : Prop where
  read?_eq : ∀ {j j'}, r.respelled j j' → r.read? j' = r.read? j
  read?_eq_none : ∀ {j}, r.doubled j → r.read? j = none

theorem lawful_needed (field : Field) (read? : Json → Option α) : (needed field read?).Lawful :=
  ⟨nofun, nofun⟩

theorem lawful_optional (field : Field) (read? : Json → Option α) (fallback : α) :
    (optional field read? fallback).Lawful :=
  ⟨nofun, nofun⟩

end Rule

/-! ## Changes -/

/-- One change in the way a record is written. -/
inductive Respelled (rules : List Rule) : Json → Json → Prop
  /-- The members in another order. -/
  | permuted {ms ms' : List (String × Json)} (h : ms.Perm ms') :
    Respelled rules (.ofMembers ms) (.ofMembers ms')
  /-- A field under another one of its names. -/
  | renamed {r : Rule} {name name' : String} {j : Json} {ms : List (String × Json)}
    (hr : r ∈ rules) (h : r.field.isNamed name) (h' : r.field.isNamed name') :
    Respelled rules (.ofMembers ((name, j) :: ms)) (.ofMembers ((name', j) :: ms))
  /-- One more member, of no field. -/
  | unknown {name : String} {j : Json} {ms : List (String × Json)}
    (h : ∀ r ∈ rules, ¬r.field.isNamed name) :
    Respelled rules (.ofMembers ms) (.ofMembers ((name, j) :: ms))
  /-- Without the only member of a field, which says what holds without it. -/
  | dropped {r : Rule} {name : String} {j : Json} {ms : List (String × Json)}
    (hr : r ∈ rules) (hname : r.field.isNamed name) (hdefault : r.IsDefault j)
    (habsent : given ms r.field = []) :
    Respelled rules (.ofMembers ((name, j) :: ms)) (.ofMembers ms)
  /-- With a member of a field that was left out, which says what held without it. -/
  | added {r : Rule} {name : String} {j : Json} {ms : List (String × Json)}
    (hr : r ∈ rules) (hname : r.field.isNamed name) (hdefault : r.IsDefault j)
    (habsent : given ms r.field = []) :
    Respelled rules (.ofMembers ms) (.ofMembers ((name, j) :: ms))
  /-- The values of all fields, each given once, in the order of the fields. -/
  | listed {ms : List (String × Json)} {items : List Json}
    (h : List.Forall₂ (fun r j => given ms r.field = [j]) rules items) :
    Respelled rules (.ofMembers ms) (.array items)
  /-- A change inside the value of a member. -/
  | inMember {r : Rule} {name : String} {j j' : Json} {ms : List (String × Json)}
    (hr : r ∈ rules) (hname : r.field.isNamed name) (h : r.respelled j j') :
    Respelled rules (.ofMembers ((name, j) :: ms)) (.ofMembers ((name, j') :: ms))
  /-- A change inside the value of a field that goes without a name. -/
  | inItem {r : Rule} {i : Nat} {j j' : Json} {items : List Json}
    (hr : rules[i]? = some r) (hj : items[i]? = some j) (h : r.respelled j j') :
    Respelled rules (.array items) (.array (items.set i j'))

/-- In a record a field is given twice, under whichever names, or one is so inside the
    value of one of its fields. -/
inductive Doubled (rules : List Rule) : Json → Prop
  | here {r : Rule} {name name' : String} {j j' : Json} {ms : List (Option String × Json)}
    (hr : r ∈ rules) (h : r.field.isNamed name) (h' : r.field.isNamed name')
    (hms : [(some name, j), (some name', j')].Sublist ms) : Doubled rules (.object ms)
  | inMember {r : Rule} {name : String} {j : Json} {ms : List (Option String × Json)}
    (hr : r ∈ rules) (hname : r.field.isNamed name) (hj : (some name, j) ∈ ms)
    (h : r.doubled j) : Doubled rules (.object ms)
  | inItem {r : Rule} {i : Nat} {j : Json} {items : List Json}
    (hr : rules[i]? = some r) (hj : items[i]? = some j) (h : r.doubled j) :
    Doubled rules (.array items)

/-- One change in one record of a list. -/
inductive ItemRespelled (rules : List Rule) : Json → Json → Prop
  | intro {i : Nat} {j j' : Json} {items : List Json} (hj : items[i]? = some j)
    (h : Respelled rules j j') : ItemRespelled rules (.array items) (.array (items.set i j'))

/-- In a record of a list a field is given twice. -/
inductive ItemDoubled (rules : List Rule) : Json → Prop
  | intro {j : Json} {items : List Json} (hj : j ∈ items) (h : Doubled rules j) :
    ItemDoubled rules (.array items)

namespace Rule

/-- A field that holds a record. -/
def record (field : Field) (ofJson? : Json → Option α) (fallback : α) (rules : List Rule) : Rule :=
  { optional field ofJson? fallback with
    respelled := Respelled rules
    doubled := Doubled rules }

/-- A field that holds a list of records, empty where it is left out. -/
def records (field : Field) (ofJson? : Json → Option α) (rules : List Rule) : Rule :=
  { optional field (list? ofJson?) [] with
    respelled := ItemRespelled rules
    doubled := ItemDoubled rules }

end Rule

/-! ## Readers -/

/-- What makes a value out of the values of the fields. -/
def Maker : List Rule → Type → Type
  | [], α => α
  | r :: rules, α => r.Value → Maker rules α

/-- The value that slots give, each field read by its rule. -/
def assemble? (slots : Slots) : (rules : List Rule) → Maker rules α → Option α
  | [], a => some a
  | r :: rules, make => (r.valueIn? slots).bind fun v => assemble? slots rules (make v)

/-- What is put together depends on the values of the slots only. -/
theorem assemble?_congr {slots slots' : Slots} : ∀ {rules : List Rule} {make : Maker rules α},
    (∀ r ∈ rules, r.valueIn? slots = r.valueIn? slots') →
    assemble? slots rules make = assemble? slots' rules make
  | [], _, _ => rfl
  | r :: rules, make, h => by
    obtain ⟨hr, hrules⟩ := List.forall_mem_cons.1 h
    rw [assemble?, assemble?, hr]
    exact congrArg _ (funext fun v => assemble?_congr hrules)

/-- Nothing is put together if one of the values cannot be read. -/
theorem assemble?_eq_none {slots : Slots} {r : Rule} (hvalue : r.valueIn? slots = none) :
    ∀ {rules : List Rule} {make : Maker rules α}, r ∈ rules → assemble? slots rules make = none
  | r' :: rules, make, hr => by
    rw [assemble?]
    rcases List.mem_cons.1 hr with rfl | hr
    · rw [hvalue]
      rfl
    · rw [Option.bind_eq_none_iff]
      exact fun v _ => assemble?_eq_none hvalue hr

/-- A reader puts together what the rules read. -/
structure Reads (rules : List Rule) (ofJson? : Json → Option α) : Prop where
  distinct : Distinct (rules.map Rule.field)
  lawful : ∀ r ∈ rules, r.Lawful
  exists_make : ∃ make : Maker rules α, ∀ j,
    ofJson? j = (slots? (rules.map Rule.field) j).bind fun slots => assemble? slots rules make

variable {rules : List Rule} {ofJson? : Json → Option α} {r : Rule} {slots slots' : Slots}
variable {ms ms' : List (String × Json)} {items : List Json} {j j' : Json} {f : Field}

namespace Reads

/-- Records with slots of the same values are read alike. -/
theorem eq_of_slots (h : Reads rules ofJson?) (hj : slots? (rules.map Rule.field) j = some slots)
    (hj' : slots? (rules.map Rule.field) j' = some slots')
    (hvalue : ∀ r ∈ rules, r.valueIn? slots' = r.valueIn? slots) : ofJson? j' = ofJson? j := by
  obtain ⟨make, hmake⟩ := h.exists_make
  rw [hmake, hmake, hj, hj']
  exact assemble?_congr hvalue

/-- A record without slots is not read. -/
theorem eq_none_of_slots (h : Reads rules ofJson?) (hj : slots? (rules.map Rule.field) j = none) :
    ofJson? j = none := by
  obtain ⟨make, hmake⟩ := h.exists_make
  rw [hmake, hj]
  rfl

/-- A record is not read if one of its values is not. -/
theorem eq_none_of_value (h : Reads rules ofJson?)
    (hj : slots? (rules.map Rule.field) j = some slots) (hr : r ∈ rules)
    (hvalue : r.valueIn? slots = none) : ofJson? j = none := by
  obtain ⟨make, hmake⟩ := h.exists_make
  rw [hmake, hj]
  exact assemble?_eq_none hvalue hr

/-- A name leads to one rule. -/
theorem eq_of_isNamed (h : Reads rules ofJson?) {r' : Rule} {name : String} (hr : r ∈ rules)
    (hr' : r' ∈ rules) (hname : r.field.isNamed name) (hname' : r'.field.isNamed name) : r' = r :=
  h.distinct.eq_of_isNamed hr' hr hname' hname

end Reads

/-! ## Objects -/

theorem slotOfMembers?_congr (h : given ms' f = given ms f) :
    slotOfMembers? ms' f = slotOfMembers? ms f := by
  refine Option.ext fun o => ?_
  rw [slotOfMembers?_eq_some_iff, slotOfMembers?_eq_some_iff, h]

/-- A member fills the slot of its field, unless the slot is taken. -/
theorem slotOfMembers?_cons_of_isNamed {name : String} (hname : f.isNamed name) :
    slotOfMembers? ((name, j) :: ms) f = if given ms f = [] then some (some j) else none := by
  have hgiven : given ((name, j) :: ms) f = j :: given ms f := given_cons_of_isNamed hname
  split
  · next hms => exact slotOfMembers?_eq_some_iff.2 (hgiven.trans (congrArg _ hms))
  · next hms =>
    refine Option.eq_none_iff_forall_ne_some.2 fun o ho => hms ?_
    have hlist := hgiven.symm.trans (slotOfMembers?_eq_some_iff.1 ho)
    cases o with
    | none => exact nomatch hlist
    | some j' => exact (List.cons.inj hlist).2

/-- The order of the members makes no difference to a slot. -/
theorem slotOfMembers?_perm (h : ms.Perm ms') : slotOfMembers? ms' f = slotOfMembers? ms f := by
  have hgiven : (given ms f).Perm (given ms' f) := (h.filter _).map _
  refine Option.ext fun o => ?_
  rw [slotOfMembers?_eq_some_iff, slotOfMembers?_eq_some_iff]
  cases o with
  | none =>
    exact ⟨fun h' => (hgiven.trans (.of_eq h')).eq_nil,
      fun h' => (hgiven.symm.trans (.of_eq h')).eq_nil⟩
  | some j =>
    exact ⟨fun h' => List.perm_singleton.1 (hgiven.trans (.of_eq h')),
      fun h' => List.perm_singleton.1 (hgiven.symm.trans (.of_eq h'))⟩

theorem slots?_eq_some_of_forall {fields : List Field} {v : Field → Option Json}
    (h : ∀ f ∈ fields, slotOfMembers? ms f = some (v f)) :
    slots? fields (.ofMembers ms) = some (fields.map fun f => (f.name, v f)) := by
  rw [slots?_eq_some_iff, List.forall₂_map_right_iff, List.forall₂_same]
  exact fun f hf => ⟨rfl, slotOfMembers?_eq_some_iff.1 (h f hf)⟩

theorem exists_slotOfMembers?_eq_none {fields : List Field}
    (h : slots? fields (.ofMembers ms) = none) : ∃ f ∈ fields, slotOfMembers? ms f = none := by
  by_contra hall
  have hsome : ∀ f ∈ fields, slotOfMembers? ms f = some (slotOfMembers? ms f).join := by
    intro f hf
    cases hslot : slotOfMembers? ms f with
    | none => exact absurd ⟨f, hf, hslot⟩ hall
    | some o => rfl
  exact nomatch h.symm.trans (slots?_eq_some_of_forall hsome)

/-- A slot of an object holds the value that is found by its name. -/
theorem slotOfMembers?_of_slots {fields : List Field} (hd : Distinct fields)
    (h : slots? fields (.ofMembers ms) = some slots) (hf : f ∈ fields) :
    slotOfMembers? ms f = some (slots.value? f.name) := by
  rw [slots?_eq_some_iff] at h
  have hnames : fields.map Field.name = slots.map Prod.fst := by
    rw [← List.forall₂_eq_eq_eq, List.forall₂_map_left_iff, List.forall₂_map_right_iff]
    exact h.imp fun _ _ hslot => hslot.1.symm
  obtain ⟨i, hi, rfl⟩ := List.getElem_of_mem hf
  have hi' : i < slots.length := h.length_eq ▸ hi
  obtain ⟨hname, hgiven⟩ := (List.forall₂_iff_get.1 h).2 i hi hi'
  have hvalue : slots.value? fields[i].name = slots[i].2 :=
    Slots.value?_of_mem (hnames ▸ hd.nodup_names) (hname ▸ List.getElem_mem hi')
  rw [hvalue]
  exact slotOfMembers?_eq_some_iff.2 hgiven

namespace Reads

/-- Two objects that give each rule the same value, or none can be told of both, are read
    alike. -/
theorem ofMembers_congr (h : Reads rules ofJson?)
    (hms : ∀ r ∈ rules, (slotOfMembers? ms' r.field).map r.value? =
      (slotOfMembers? ms r.field).map r.value?) :
    ofJson? (.ofMembers ms') = ofJson? (.ofMembers ms) := by
  cases hslots : slots? (rules.map Rule.field) (.ofMembers ms) with
  | none =>
    -- a field that is given twice is so in both objects
    obtain ⟨f, hf, hnone⟩ := exists_slotOfMembers?_eq_none hslots
    obtain ⟨r, hr, rfl⟩ := List.mem_map.1 hf
    have hnone' : slotOfMembers? ms' r.field = none := by simpa [hnone] using hms r hr
    rw [h.eq_none_of_slots hslots]
    cases hslots' : slots? (rules.map Rule.field) (.ofMembers ms') with
    | none => exact h.eq_none_of_slots hslots'
    | some slots' =>
      exact nomatch hnone'.symm.trans (slotOfMembers?_of_slots h.distinct hslots' hf)
  | some slots =>
    have hslot : ∀ r ∈ rules, slotOfMembers? ms r.field = some (slots.value? r.field.name) :=
      fun r hr => slotOfMembers?_of_slots h.distinct hslots (List.mem_map_of_mem hr)
    cases hslots' : slots? (rules.map Rule.field) (.ofMembers ms') with
    | none =>
      obtain ⟨f, hf, hnone⟩ := exists_slotOfMembers?_eq_none hslots'
      obtain ⟨r, hr, rfl⟩ := List.mem_map.1 hf
      have hr' := hms r hr
      rw [hnone, hslot r hr] at hr'
      exact nomatch hr'
    | some slots' =>
      refine h.eq_of_slots hslots hslots' fun r hr => ?_
      have hr' := hms r hr
      rw [hslot r hr, slotOfMembers?_of_slots h.distinct hslots' (List.mem_map_of_mem hr)] at hr'
      exact Option.some.inj hr'

/-- One more member matters to the field that it names only. -/
theorem ofMembers_congr_of_isNamed (h : Reads rules ofJson?) {name name' : String}
    (hr : r ∈ rules) (hname : r.field.isNamed name) (hname' : r.field.isNamed name')
    (hslot : (slotOfMembers? ((name', j') :: ms) r.field).map r.value? =
      (slotOfMembers? ((name, j) :: ms) r.field).map r.value?) :
    ofJson? (.ofMembers ((name', j') :: ms)) = ofJson? (.ofMembers ((name, j) :: ms)) := by
  refine h.ofMembers_congr fun r' hr' => ?_
  by_cases heq : r' = r
  · exact heq ▸ hslot
  · have hnot : ¬r'.field.isNamed name := fun hn => heq (h.eq_of_isNamed hr hr' hname hn)
    have hnot' : ¬r'.field.isNamed name' := fun hn => heq (h.eq_of_isNamed hr hr' hname' hn)
    rw [slotOfMembers?_congr ((given_cons_of_not hnot').trans (given_cons_of_not hnot).symm)]

/-- A member that says what holds without it makes no difference. -/
theorem ofMembers_default (h : Reads rules ofJson?) {name : String} (hr : r ∈ rules)
    (hname : r.field.isNamed name) (hdefault : r.IsDefault j) (habsent : given ms r.field = []) :
    ofJson? (.ofMembers ((name, j) :: ms)) = ofJson? (.ofMembers ms) := by
  refine h.ofMembers_congr fun r' hr' => ?_
  by_cases heq : r' = r
  · subst heq
    have hslot : slotOfMembers? ms r'.field = some none := slotOfMembers?_eq_some_iff.2 habsent
    rw [hslot, slotOfMembers?_cons_of_isNamed hname, if_pos habsent, Option.map_some,
      Option.map_some, Rule.value?_none, Rule.value?_some, hdefault.2]
  · have hnot : ¬r'.field.isNamed name := fun hn => heq (h.eq_of_isNamed hr hr' hname hn)
    rw [slotOfMembers?_congr (given_cons_of_not hnot)]

end Reads

/-! ## Arrays -/

theorem slotsOfItems?_of_lt : ∀ {fields : List Field} {items : List Json},
    fields.length < items.length → slotsOfItems? fields items = none
  | [], j :: items, _ => rfl
  | f :: fields, j :: items, h => by
    rw [slotsOfItems?, slotsOfItems?_of_lt (Nat.lt_of_succ_lt_succ h)]
    rfl

theorem exists_slotsOfItems? : ∀ {fields : List Field} {items : List Json},
    items.length ≤ fields.length → ∃ slots, slotsOfItems? fields items = some slots ∧
      slots.map Prod.fst = fields.map Field.name ∧
      ∀ (i : Nat) (f : Field), fields[i]? = some f → (f.name, items[i]?) ∈ slots
  | fields, [], _ => by
    refine ⟨_, by rw [slotsOfItems?], by simp [Function.comp_def], fun i f hf => ?_⟩
    exact List.mem_map_of_mem (List.mem_of_getElem? hf)
  | f :: fields, j :: items, h => by
    obtain ⟨slots, hslots, hnames, hmem⟩ := exists_slotsOfItems? (Nat.le_of_succ_le_succ h)
    refine ⟨_, by rw [slotsOfItems?, hslots, Option.map_some], by simp [hnames], fun i g hg => ?_⟩
    cases i with
    | zero =>
      obtain rfl : f = g := by simpa using hg
      exact List.mem_cons_self
    | succ i => exact List.mem_cons_of_mem _ (hmem i g hg)

/-- Members that give each field one value fill the same slots as the array of these values. -/
theorem exists_slots_of_listed {fields : List Field}
    (h : List.Forall₂ (fun f j => given ms f = [j]) fields items) :
    ∃ slots, slotsOfItems? fields items = some slots ∧
      slots? fields (.ofMembers ms) = some slots := by
  induction h with
  | nil => exact ⟨[], rfl, slots?_eq_some_iff.2 .nil⟩
  | @cons f j fields items hf _ ih =>
    obtain ⟨slots, hitems, hmembers⟩ := ih
    refine ⟨(f.name, some j) :: slots, ?_, ?_⟩
    · rw [slotsOfItems?, hitems]
      rfl
    · exact slots?_eq_some_iff.2 (.cons ⟨rfl, hf⟩ (slots?_eq_some_iff.1 hmembers))

namespace Reads

/-- The items of an array are the values of the fields in their order. -/
theorem exists_valueIn? (h : Reads rules ofJson?) (hle : items.length ≤ rules.length) :
    ∃ slots, slots? (rules.map Rule.field) (.array items) = some slots ∧
      ∀ (i : Nat) (r : Rule), rules[i]? = some r → r.valueIn? slots = r.value? items[i]? := by
  obtain ⟨slots, hslots, hnames, hmem⟩ :=
    exists_slotsOfItems? (hle.trans_eq (List.length_map Rule.field).symm)
  refine ⟨slots, hslots, fun i r hr => congrArg r.value? ?_⟩
  exact Slots.value?_of_mem (hnames ▸ h.distinct.nodup_names) (hmem i r.field (by simp [hr]))

/-- A list with more items than there are fields is not read. -/
theorem array_eq_none (h : Reads rules ofJson?) (hlt : rules.length < items.length) :
    ofJson? (.array items) = none :=
  h.eq_none_of_slots (slotsOfItems?_of_lt (by simpa using hlt))

/-- An item of a list may be spelled in another way that is read alike. -/
theorem array_set (h : Reads rules ofJson?) {i : Nat} (hr : rules[i]? = some r)
    (hj : items[i]? = some j) (hread : r.read? j' = r.read? j) :
    ofJson? (.array (items.set i j')) = ofJson? (.array items) := by
  rcases Nat.lt_or_ge rules.length items.length with hlt | hle
  · rw [h.array_eq_none hlt, h.array_eq_none (by simpa using hlt)]
  · obtain ⟨slots, hslots, hvalue⟩ := h.exists_valueIn? hle
    have hle' : (items.set i j').length ≤ rules.length := by rwa [List.length_set]
    obtain ⟨slots', hslots', hvalue'⟩ := h.exists_valueIn? hle'
    refine h.eq_of_slots hslots hslots' fun r' hr' => ?_
    obtain ⟨k, hk⟩ := List.getElem?_of_mem hr'
    rw [hvalue k r' hk, hvalue' k r' hk]
    by_cases hki : i = k
    · -- the item that is replaced belongs to this rule alone
      subst hki
      obtain rfl : r = r' := Option.some.inj (hr.symm.trans hk)
      have hset : (items.set i j')[i]? = some j' := by
        rw [List.getElem?_set_self (List.getElem?_eq_some_iff.1 hj).1]
      rw [hset, hj, Rule.value?_some, Rule.value?_some, hread]
    · rw [List.getElem?_set_ne hki]

/-- A record is read alike with names and without. -/
theorem array_of_members (h : Reads rules ofJson?)
    (hitems : List.Forall₂ (fun r j => given ms r.field = [j]) rules items) :
    ofJson? (.array items) = ofJson? (.ofMembers ms) := by
  obtain ⟨slots, harray, hmembers⟩ :=
    exists_slots_of_listed (List.forall₂_map_left_iff.2 hitems)
  exact h.eq_of_slots hmembers harray fun _ _ => rfl

/-! ## Respelled records -/

/-- A change in the way a record is written changes nothing in what is read. -/
theorem eq_of_respelled (h : Reads rules ofJson?) (hj : Respelled rules j j') :
    ofJson? j' = ofJson? j := by
  cases hj with
  | permuted hperm =>
    exact h.ofMembers_congr fun r _ => by rw [slotOfMembers?_perm hperm]
  | renamed hr hname hname' =>
    refine h.ofMembers_congr_of_isNamed hr hname hname' ?_
    rw [slotOfMembers?_congr
      ((given_cons_of_isNamed hname').trans (given_cons_of_isNamed hname).symm)]
  | unknown hunknown =>
    exact h.ofMembers_congr fun r hr => by
      rw [slotOfMembers?_congr (given_cons_of_not (hunknown r hr))]
  | dropped hr hname hdefault habsent => exact (h.ofMembers_default hr hname hdefault habsent).symm
  | added hr hname hdefault habsent => exact h.ofMembers_default hr hname hdefault habsent
  | listed hitems => exact h.array_of_members hitems
  | @inMember r name j j' ms hr hname hvalue =>
    refine h.ofMembers_congr_of_isNamed hr hname hname ?_
    have hread : r.read? j' = r.read? j := (h.lawful r hr).read?_eq hvalue
    -- the value is read alike, unless the field has been given another one
    rw [slotOfMembers?_cons_of_isNamed hname, slotOfMembers?_cons_of_isNamed hname]
    split
    · rw [Option.map_some, Option.map_some, Rule.value?_some, Rule.value?_some, hread]
    · rfl
  | inItem hr hj hvalue =>
    exact h.array_set hr hj ((h.lawful _ (List.mem_of_getElem? hr)).read?_eq hvalue)

end Reads

/-! ## Fields given twice -/

section Twice

variable {fields : List Field} {named : List (Option String × Json)} {name name' : String}

/-- Of an object that fills the slots of some fields all names are texts. -/
theorem exists_ofMembers (h : slots? fields (.object named) = some slots) :
    ∃ ms : List (String × Json), named = ms.map fun m => (some m.1, m.2) := by
  obtain ⟨ms, hms, -⟩ := Option.bind_eq_some_iff.1 h
  refine ⟨ms, ?_⟩
  rw [mapM_eq_some_iff] at hms
  rw [← List.forall₂_eq_eq_eq, List.forall₂_map_right_iff]
  refine hms.imp fun m m' hm => ?_
  obtain ⟨name, hname, rfl⟩ := Option.map_eq_some_iff.1 hm
  exact Prod.ext hname rfl

theorem given_of_slots (hd : Distinct fields)
    (h : slots? fields (.ofMembers ms) = some slots) (hf : f ∈ fields) :
    given ms f = (slots.value? f.name).toList :=
  slotOfMembers?_eq_some_iff.1 (slotOfMembers?_of_slots hd h hf)

/-- An object that names a field twice has no slots, whichever names it uses. -/
theorem slots?_eq_none_of_twice (hd : Distinct fields) (hf : f ∈ fields) (hname : f.isNamed name)
    (hname' : f.isNamed name') (hms : [(some name, j), (some name', j')].Sublist named) :
    slots? fields (.object named) = none := by
  refine Option.eq_none_iff_forall_ne_some.2 fun slots hslots => ?_
  obtain ⟨ms, rfl⟩ := exists_ofMembers hslots
  obtain ⟨two, htwo, hmap⟩ := List.sublist_map_iff.1 hms
  have hinj : Function.Injective fun m : String × Json => (some m.1, m.2) :=
    fun m m' hm => Prod.ext (Option.some.inj (Prod.mk.inj hm).1) (Prod.mk.inj hm).2
  obtain rfl : two = [(name, j), (name', j')] := List.map_injective_iff.2 hinj hmap.symm
  -- both values are given to the field, but its slot holds one at most
  have hsub : (given [(name, j), (name', j')] f).Sublist (given ms f) := (htwo.filter _).map _
  rw [given_cons_of_isNamed hname, given_cons_of_isNamed hname', given_of_slots hd hslots hf]
    at hsub
  exact absurd hsub.length_le (by cases slots.value? f.name <;> simp)

/-- A member with a name of a field gives the slot of this field its value. -/
theorem value?_of_mem_object (hd : Distinct fields)
    (h : slots? fields (.object named) = some slots) (hf : f ∈ fields) (hname : f.isNamed name)
    (hj : (some name, j) ∈ named) : slots.value? f.name = some j := by
  obtain ⟨ms, rfl⟩ := exists_ofMembers h
  have hgiven : j ∈ given ms f := by
    obtain ⟨⟨name', j'⟩, hm, hmj⟩ := List.mem_map.1 hj
    cases hmj
    exact List.mem_map_of_mem (List.mem_filter.2 ⟨hm, hname⟩)
  rwa [given_of_slots hd h hf, Option.mem_toList] at hgiven

end Twice

namespace Reads

/-- A record with a doubled field, at whatever depth, is not read. -/
theorem eq_none_of_doubled (h : Reads rules ofJson?) (hj : Doubled rules j) :
    ofJson? j = none := by
  cases hj with
  | here hr hname hname' hms =>
    exact h.eq_none_of_slots
      (slots?_eq_none_of_twice h.distinct (List.mem_map_of_mem hr) hname hname' hms)
  | @inMember r name j named hr hname hmem hvalue =>
    cases hslots : slots? (rules.map Rule.field) (.object named) with
    | none => exact h.eq_none_of_slots hslots
    | some slots =>
      have hslot : slots.value? r.field.name = some j :=
        value?_of_mem_object h.distinct hslots (List.mem_map_of_mem hr) hname hmem
      refine h.eq_none_of_value hslots hr ?_
      rw [Rule.valueIn?, hslot, Rule.value?_some, (h.lawful r hr).read?_eq_none hvalue]
  | @inItem r i j items hr hj hvalue =>
    have hread : r.read? j = none := (h.lawful r (List.mem_of_getElem? hr)).read?_eq_none hvalue
    -- an array with more items than there are fields is refused for that alone
    rcases Nat.lt_or_ge rules.length items.length with hlt | hle
    · exact h.array_eq_none hlt
    · obtain ⟨slots, hslots, hvalues⟩ := h.exists_valueIn? hle
      refine h.eq_none_of_value hslots (List.mem_of_getElem? hr) ?_
      rw [hvalues i r hr, hj, Rule.value?_some, hread]

end Reads

/-! ## Records as values -/

namespace Rule

variable {field : Field}

theorem lawful_record {fallback : α} (h : Reads rules ofJson?) :
    (record field ofJson? fallback rules).Lawful :=
  ⟨h.eq_of_respelled, h.eq_none_of_doubled⟩

theorem lawful_records (h : Reads rules ofJson?) : (records field ofJson? rules).Lawful where
  read?_eq {_ _} hlist := by
    obtain @⟨i, j, j', items, hj, hj'⟩ := hlist
    have hset : (items.set i j').map ofJson? = items.map ofJson? := by
      obtain ⟨hi, rfl⟩ := List.getElem?_eq_some_iff.1 hj
      rw [List.map_set, h.eq_of_respelled hj', ← List.getElem_map ofJson?, List.set_getElem_self]
      simpa using hi
    have hmap : ∀ items : List Json, items.mapM ofJson? = (items.map ofJson?).mapM id :=
      fun items => by rw [List.mapM_map]; rfl
    exact (hmap _).trans ((congrArg _ hset).trans (hmap items).symm)
  read?_eq_none {_} hlist := by
    obtain @⟨j, items, hj, hdoubled⟩ := hlist
    refine Option.eq_none_iff_forall_ne_some.2 fun list hread => ?_
    obtain ⟨i, hi, rfl⟩ := List.getElem_of_mem hj
    have hitems := List.forall₂_iff_get.1 (mapM_eq_some_iff.1 hread)
    exact nomatch (h.eq_none_of_doubled hdoubled).symm.trans (hitems.2 i hi (hitems.1 ▸ hi))

end Rule

end TraceFold.Json
