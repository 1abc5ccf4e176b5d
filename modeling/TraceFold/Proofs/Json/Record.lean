/-
  TraceFold.Proofs.Json.Record

  What an object gives to the fields of a record.  Each field gets the values of the
  members that bear one of its names, and where no name is shared, the values of one
  field are no other field's.  Slots that are written as members, the empty ones left
  out, are read back as they were, and so are the single values in them.
-/

import Mathlib.Data.List.Pairwise
import TraceFold.Proofs.Lists
import TraceFold.Trace.Json

namespace TraceFold.Json

variable {α : Type} {fields : List Field} {f g : Field} {name : String} {slots : Slots}
variable {ms : List (String × Json)} {depth : Nat}

/-! ## Names -/

/-- The names of a field. -/
def Field.names (f : Field) : List String :=
  f.name :: f.alias?.toList

theorem Field.isNamed_iff : f.isNamed name ↔ name ∈ f.names := by
  cases h : f.alias? <;> simp [Field.isNamed, Field.names, h]

/-- A field is named by its own name. -/
theorem Field.isNamed_name : f.isNamed f.name := by
  simp [Field.isNamed]

/-- No name is that of two fields. -/
def Distinct (fields : List Field) : Prop :=
  (fields.flatMap Field.names).Nodup

instance : Decidable (Distinct fields) :=
  inferInstanceAs (Decidable (fields.flatMap Field.names).Nodup)

namespace Distinct

/-- Of what has a field each, only one can go by a name. -/
theorem eq_of_isNamed {β : Type*} {field : β → Field} {l : List β} {a b : β}
    (h : Distinct (l.map field)) (ha : a ∈ l) (hb : b ∈ l) (han : (field a).isNamed name)
    (hbn : (field b).isNamed name) : a = b := by
  by_contra hne
  rw [Distinct, List.flatMap_map] at h
  have : Std.Symm (Function.onFun List.Disjoint fun a => (field a).names) :=
    ⟨fun _ _ h _ hg hf => h hf hg⟩
  have hdisjoint := (List.nodup_flatMap.1 h).2.forall ha hb hne
  exact hdisjoint (Field.isNamed_iff.1 han) (Field.isNamed_iff.1 hbn)

/-- Fields that are distinct have different names. -/
theorem nodup_names (h : Distinct fields) : (fields.map Field.name).Nodup := by
  refine List.pairwise_map.2 ((List.nodup_flatMap.1 h).2.imp fun {f g} hdisjoint hname => ?_)
  exact hdisjoint (Field.isNamed_iff.1 Field.isNamed_name)
    (hname ▸ Field.isNamed_iff.1 Field.isNamed_name)

end Distinct

/-! ## The values that members give -/

/-- The values that members give to a field. -/
def given (ms : List (String × Json)) (f : Field) : List Json :=
  (ms.filter fun m => f.isNamed m.1).map Prod.snd

theorem given_cons_of_isNamed {j : Json} (h : f.isNamed name) :
    given ((name, j) :: ms) f = j :: given ms f := by
  simp [given, h]

/-- A member with another name gives a field nothing. -/
theorem given_cons_of_not {j : Json} (h : ¬f.isNamed name) :
    given ((name, j) :: ms) f = given ms f := by
  simp [given, h]

/-- A slot holds what the members give its field, which is one value at most. -/
theorem slotOfMembers?_eq_some_iff {o : Option Json} :
    slotOfMembers? ms f = some o ↔ given ms f = o.toList := by
  unfold slotOfMembers? given
  generalize ms.filter (fun m => f.isNamed m.1) = named
  match named with
  | [] => cases o <;> simp
  | [(_, j)] => cases o <;> simp
  | _ :: _ :: _ => cases o <;> simp

theorem slots?_ofMembers : slots? fields (.ofMembers ms) =
    fields.mapM fun f => (slotOfMembers? ms f).map (f.name, ·) := by
  have hnames : (ms.map fun m => (some m.1, m.2)).mapM
      (fun m : Option String × Json => m.1.map (·, m.2)) = some ms := by
    rw [List.mapM_map]
    exact List.mapM_pure.trans (congrArg some (List.map_id ms))
  exact congrArg (Option.bind · _) hnames

/-- The slots of an object are those of its fields, each by itself. -/
theorem slots?_eq_some_iff : slots? fields (.ofMembers ms) = some slots ↔
    List.Forall₂ (fun f slot => slot.1 = f.name ∧ given ms f = slot.2.toList) fields slots := by
  rw [slots?_ofMembers, mapM_eq_some_iff]
  refine iff_of_eq (congrArg (List.Forall₂ · fields slots) (funext fun f => funext fun slot => ?_))
  rw [Option.map_eq_some_iff, eq_iff_iff]
  constructor
  · rintro ⟨o, ho, rfl⟩
    exact ⟨rfl, slotOfMembers?_eq_some_iff.1 ho⟩
  · rintro ⟨hname, hgiven⟩
    exact ⟨slot.2, slotOfMembers?_eq_some_iff.2 hgiven, Prod.ext hname.symm rfl⟩

/-! ## Slots written as members -/

namespace Slots

/-- The value that a slot holds is found by its name. -/
theorem value?_of_mem {o : Option Json} (hnodup : (slots.map Prod.fst).Nodup)
    (h : (name, o) ∈ slots) : slots.value? name = o := by
  induction slots with
  | nil => exact absurd h List.not_mem_nil
  | cons slot slots ih =>
    obtain ⟨hfresh, hnodup⟩ := List.nodup_cons.1 hnodup
    unfold value?
    rcases List.mem_cons.1 h with rfl | h
    · rw [List.lookup_cons_self]
      rfl
    · have hne : name ≠ slot.1 := fun heq => hfresh (heq ▸ List.mem_map_of_mem h)
      rw [List.lookup_cons, beq_false_of_ne hne]
      exact ih hnodup h

/-- The slots that hold a value, as members. -/
def members (slots : Slots) : List (String × Json) :=
  slots.filterMap fun slot => slot.2.map (slot.1, ·)

/-- The members that are written are the slots that hold something. -/
theorem mem_members {m : String × Json} : m ∈ slots.members ↔ (m.1, some m.2) ∈ slots := by
  constructor
  · intro hm
    obtain ⟨⟨name, o⟩, hslot, hj⟩ := List.mem_filterMap.1 hm
    obtain ⟨j, rfl, rfl⟩ := Option.map_eq_some_iff.1 hj
    exact hslot
  · exact fun hslot => List.mem_filterMap.2 ⟨_, hslot, rfl⟩

theorem given_members (slots : Slots) (f : Field) : given slots.members f =
    slots.flatMap fun slot => if f.isNamed slot.1 then slot.2.toList else [] := by
  induction slots with
  | nil => rfl
  | cons slot slots ih =>
    obtain ⟨name, o⟩ := slot
    rw [List.flatMap_cons, ← ih]
    by_cases h : f.isNamed name <;> cases o <;> simp [members, given, h]

end Slots

/-- Slots in the order of the fields are read back from their members. -/
theorem slots?_members (h : Distinct fields) (hnames : slots.map Prod.fst = fields.map Field.name) :
    slots? fields (.ofMembers slots.members) = some slots := by
  have hnodup : (slots.map Prod.fst).Nodup := hnames ▸ h.nodup_names
  refine slots?_eq_some_iff.2 (List.forall₂_iff_get.2 ⟨?_, fun i hf hs => ?_⟩)
  · simpa using (congrArg List.length hnames).symm
  have hname : (slots.get ⟨i, hs⟩).1 = (fields.get ⟨i, hf⟩).name := by
    have hget := congrArg (·[i]?) hnames
    simpa [hf, hs] using hget
  refine ⟨hname, ?_⟩
  rw [Slots.given_members, flatMap_eq_of_unique Prod.fst (List.pairwise_map.1 hnodup)
    (List.get_mem slots ⟨i, hs⟩), hname, if_pos Field.isNamed_name]
  -- a slot of another name is that of another field, which no name is given to as well
  intro slot hslot hne
  refine if_neg fun hnamed => hne ?_
  obtain ⟨g, hg, hgname⟩ : ∃ g ∈ fields, g.name = slot.1 := by
    simpa [hnames] using List.mem_map_of_mem (f := Prod.fst) hslot
  have hsame := ((List.map_id fields).symm ▸ h : Distinct (fields.map id)).eq_of_isNamed
    (List.get_mem fields ⟨i, hf⟩) hg hnamed (hgname ▸ Field.isNamed_name)
  rw [hname, hsame, hgname]

/-! ## Single values -/

/-- A field of some bits takes a number exactly if they can hold it. -/
theorem word?_ofNat (bits n : Nat) :
    (ofNat n).word? bits = if n < 2 ^ bits then some n else none := by
  have hpos : 0 < 2 ^ bits := Nat.pow_pos (by decide)
  have hiff : decide ((n : Int) ≤ ((2 ^ bits : Nat) : Int) - 1) = decide (n < 2 ^ bits) := by
    rw [decide_eq_decide]
    omega
  rw [word?, Nat.one_shiftLeft, intWithin?, show (ofNat n).int? = some (n : Int) from rfl,
    Option.filter_some, hiff]
  split <;> simp_all

/-- A field of some bits takes an integer exactly if it is within their range. -/
theorem signedWord?_ofInt (bits : Nat) (n : Int) : (ofInt n).signedWord? bits =
    if -2 ^ (bits - 1) ≤ n ∧ n < 2 ^ (bits - 1) then some n else none := by
  have hiff : ∀ half : Int, n ≤ half - 1 ↔ n < half := fun _ => Int.le_sub_one_iff
  rw [signedWord?, Nat.one_shiftLeft, intWithin?, int?_ofInt, Option.filter_some]
  simp only [hiff, Int.natCast_pow, Int.cast_ofNat_Int, Bool.and_eq_true, decide_eq_true_eq]

/-- A list is read back exactly if each of its items is. -/
theorem list?_ofList_iff {write : α → Json} {item? : Json → Option α} (xs : List α) :
    (ofList write xs).list? item? = some xs ↔ ∀ x ∈ xs, item? (write x) = some x := by
  rw [ofList, list?, mapM_eq_some_iff, List.forall₂_map_left_iff, List.forall₂_same]

/-- What may be absent is read back, be it left out or written. -/
theorem Slots.orElse_option (write : α → Json) {item? : Json → Option α} {o : Option α}
    (hvalue : slots.value? name = o.map write)
    (hread : ∀ x ∈ o, option? item? (write x) = some (some x)) :
    slots.orElse name (option? item?) none = some o := by
  rw [orElse, hvalue]
  cases o with
  | none => rfl
  | some x => exact hread x rfl

/-! ## Values that are read in full -/

theorem isReadable_ofNat {n : Nat} (h : n < 2 ^ 64) : (ofNat n).isReadable depth := by
  have hword := word?_ofNat 64 n
  rw [if_pos h] at hword
  rw [ofNat] at hword ⊢
  simp [isReadable, isNumberInRange, hword]

/-- A list may be nested one level deeper than its items. -/
theorem isReadable_ofList {write : α → Json} (xs : List α) :
    (ofList write xs).isReadable (depth + 1) ↔ ∀ x ∈ xs, (write x).isReadable depth := by
  have hitems : ∀ items, itemsReadable depth items ↔ ∀ j ∈ items, j.isReadable depth := by
    intro items
    induction items with
    | nil => simp [itemsReadable]
    | cons j items ih => simp [itemsReadable, ih]
  simp [ofList, isReadable, hitems]

/-- An object may be nested one level deeper than its values. -/
theorem isReadable_ofMembers :
    (ofMembers ms).isReadable (depth + 1) ↔ ∀ m ∈ ms, m.2.isReadable depth := by
  simp only [ofMembers, isReadable]
  induction ms with
  | nil => simp [membersReadable]
  | cons m ms ih =>
    simp only [List.map_cons, membersReadable, List.forall_mem_cons, ← ih]
    simp

end TraceFold.Json
