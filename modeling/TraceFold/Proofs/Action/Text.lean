/-
  TraceFold.Proofs.Action.Text

  The texts that name an action, and what is wrong with all the others.  A text is cut at
  its first colon (`Splits`); what stands before it has to be one of four verbs, and what
  the target has to be depends on the verb (`Spelling`).  A text that names no action is
  refused for the first thing that is wrong with it, in the order colon, verb, target
  (`Refuses`).  Every action is named by its own text, as long as its number has 32 bits.
-/

import TraceFold.Action.Text
import TraceFold.Proofs.Id.Spelling

namespace TraceFold.Action

variable {text verb : String} {target right : List Char} {a : Action} {e : ActionTextError}

/-! ## What a text names -/

/-- A text is cut at its first colon.  Blanks around the text and around its two sides are
    left out, and the verb is taken in lower case. -/
inductive Splits (text : String) : String → List Char → Prop
  | cut {left right : List Char} (hcut : Text.trim text.toList = left ++ ':' :: right)
      (hleft : ':' ∉ left) :
      Splits text (String.ofList ((Text.trim left).map Char.toLower)) (Text.trim right)

/-- The action that a verb in lower case and a target without blanks around it name. -/
inductive Spelling : String → List Char → Action → Prop
  | toggle {target : List Char} {node : NodeId} (hnode : NodeSpelling node target) :
      Spelling "toggle" target (.toggle node)
  | expand {target : List Char} {c : CodecId} (hnode : NodeSpelling (.codec c) target) :
      Spelling "expand" target (.expand c)
  | hide {target : List Char} {g : GraphId} (hnode : NodeSpelling (.graph g) target) :
      Spelling "hide" target (.hide g)
  | collapseStandard : Spelling "standard" "collapse".toList (.standard true)
  | expandStandard : Spelling "standard" "expand".toList (.standard false)

/-- A text names an action. -/
def Names (text : String) (a : Action) : Prop :=
  ∃ verb target, Splits text verb target ∧ Spelling verb target a

/-- The verbs whose target is a node. -/
def nodeVerbs : List String :=
  ["toggle", "expand", "hide"]

theorem mem_nodeVerbs {verb : String} :
    verb ∈ nodeVerbs ↔ verb = "toggle" ∨ verb = "expand" ∨ verb = "hide" := by
  simp [nodeVerbs]

/-- What is wrong with a verb and a target.  The target is looked at only if there is such a
    verb, and its kind only if it is a node. -/
inductive Misspelling : String → List Char → ActionTextError → Prop
  | unknownVerb {verb : String} {target : List Char} (hnode : verb ∉ nodeVerbs)
      (hmode : verb ≠ "standard") : Misspelling verb target (.unknownVerb verb)
  | standardMode {target : List Char} (hcollapse : target ≠ "collapse".toList)
      (hexpand : target ≠ "expand".toList) :
      Misspelling "standard" target (.standardMode (String.ofList target))
  | node {verb : String} {target : List Char} (hverb : verb ∈ nodeVerbs)
      (hnode : ∀ node, ¬NodeSpelling node target) :
      Misspelling verb target (.node ⟨String.ofList target⟩)
  | notCodec {target : List Char} {g : GraphId} (hnode : NodeSpelling (.graph g) target) :
      Misspelling "expand" target (.wrongKind "expand" "codec" (.graph g))
  | notGraph {target : List Char} {c : CodecId} (hnode : NodeSpelling (.codec c) target) :
      Misspelling "hide" target (.wrongKind "hide" "graph" (.codec c))

/-- Why a text names no action. -/
inductive Refuses (text : String) : ActionTextError → Prop
  | missingTarget (hcolon : ':' ∉ text.toList) : Refuses text (.missingTarget text)
  | misspelling {verb : String} {target : List Char} {e : ActionTextError}
      (hsplit : Splits text verb target) (hwrong : Misspelling verb target e) : Refuses text e

/-- The numbers of identifiers have 32 bits. -/
def InRange : Action → Prop
  | .toggle node => node.index < 2 ^ 32
  | .expand c => c.index < 2 ^ 32
  | .hide g => g.index < 2 ^ 32
  | .standard _ => True

/-! ## Targets -/

/-- A target names the node that it spells, blanks around it apart. -/
theorem targetNode_eq_ok_iff {node : NodeId} :
    targetNode right = .ok node ↔ NodeSpelling node (Text.trim right) := by
  rw [← NodeId.ofText_eq_ok_iff, targetNode]
  cases NodeId.ofText right <;> simp [Except.mapError]

/-- It names none if it spells none, and is then reported without the blanks. -/
theorem targetNode_eq_error_iff : targetNode right = .error e ↔
    (∀ node, ¬NodeSpelling node (Text.trim right)) ∧
      e = .node ⟨String.ofList (Text.trim right)⟩ := by
  have herror : targetNode right = .error e ↔
      ∃ e', NodeId.ofText right = .error e' ∧ e = .node e' := by
    unfold targetNode
    cases NodeId.ofText right <;> simp [Except.mapError, eq_comm]
  simp only [herror, NodeId.ofText_eq_error_iff]
  exact ⟨fun ⟨e', ⟨hnode, he'⟩, he⟩ => ⟨hnode, by rw [he, he']⟩,
    fun ⟨hnode, he⟩ => ⟨_, ⟨hnode, rfl⟩, he⟩⟩

/-- A target that has to be a codec is one, or a graph, or no node. -/
theorem targetCodec_eq (verb : String) (right : List Char) :
    targetCodec verb right = match targetNode right with
      | .ok (.codec c) => .ok c
      | .ok (.graph g) => .error (.wrongKind verb "codec" (.graph g))
      | .error e => .error e := by
  unfold targetCodec
  cases targetNode right with
  | error e => rfl
  | ok node => cases node <;> rfl

theorem targetGraph_eq (verb : String) (right : List Char) :
    targetGraph verb right = match targetNode right with
      | .ok (.graph g) => .ok g
      | .ok (.codec c) => .error (.wrongKind verb "graph" (.codec c))
      | .error e => .error e := by
  unfold targetGraph
  cases targetNode right with
  | error e => rfl
  | ok node => cases node <;> rfl

/-! ## Verbs -/

theorem targetMode_eq (right : List Char) : targetMode right =
    if Text.trim right = "collapse".toList then .ok true
    else if Text.trim right = "expand".toList then .ok false
    else .error (.standardMode (String.ofList (Text.trim right))) := by
  unfold targetMode
  split
  · rename_i hmode
    rw [if_pos (by rw [← hmode, String.toList_ofList])]
  · rename_i hmode
    have htarget : Text.trim right = "expand".toList := by rw [← hmode, String.toList_ofList]
    rw [htarget, if_neg (by decide), if_pos rfl]
  · rename_i hcollapse hexpand
    rw [if_neg fun h => hcollapse (by rw [h, String.ofList_toList]),
      if_neg fun h => hexpand (by rw [h, String.ofList_toList])]

/-- A verb with a target that fits gives its action. -/
theorem ofVerb_of_spelling (h : Spelling verb (Text.trim right) a) : ofVerb verb right = .ok a := by
  generalize htarget : Text.trim right = target at h
  cases h with
  | toggle hnode =>
    rw [ofVerb, targetNode_eq_ok_iff.2 (htarget ▸ hnode), Except.map]
  | expand hnode =>
    rw [ofVerb, targetCodec_eq, targetNode_eq_ok_iff.2 (htarget ▸ hnode), Except.map]
  | hide hnode =>
    rw [ofVerb, targetGraph_eq, targetNode_eq_ok_iff.2 (htarget ▸ hnode), Except.map]
  | collapseStandard => rw [ofVerb, targetMode_eq, if_pos htarget, Except.map]
  | expandStandard =>
    rw [ofVerb, targetMode_eq, htarget, if_neg (by decide), if_pos rfl, Except.map]

/-- A verb with a target that does not fit is refused, and so is an unknown verb. -/
theorem ofVerb_of_misspelling (h : Misspelling verb (Text.trim right) e) :
    ofVerb verb right = .error e := by
  generalize htarget : Text.trim right = target at h
  cases h with
  | unknownVerb hnode hmode =>
    rw [mem_nodeVerbs, not_or, not_or] at hnode
    unfold ofVerb
    split <;> simp_all
  | standardMode hcollapse hexpand =>
    subst htarget
    rw [ofVerb, targetMode_eq, if_neg hcollapse, if_neg hexpand, Except.map]
  | node hverb hnode =>
    subst htarget
    have herror := targetNode_eq_error_iff.2 ⟨hnode, rfl⟩
    rcases mem_nodeVerbs.1 hverb with rfl | rfl | rfl
    · rw [ofVerb, herror, Except.map]
    · rw [ofVerb, targetCodec_eq, herror, Except.map]
    · rw [ofVerb, targetGraph_eq, herror, Except.map]
  | notCodec hnode =>
    rw [ofVerb, targetCodec_eq, targetNode_eq_ok_iff.2 (htarget ▸ hnode), Except.map]
  | notGraph hnode =>
    rw [ofVerb, targetGraph_eq, targetNode_eq_ok_iff.2 (htarget ▸ hnode), Except.map]

/-- A verb and a target name an action, or something is wrong with them. -/
theorem spelling_or_misspelling (verb : String) (target : List Char) :
    (∃ a, Spelling verb target a) ∨ ∃ e, Misspelling verb target e := by
  by_cases hverb : verb ∈ nodeVerbs
  · by_cases hnode : ∃ node, NodeSpelling node target
    · obtain ⟨node, hnode⟩ := hnode
      rcases mem_nodeVerbs.1 hverb with rfl | rfl | rfl
      · exact Or.inl ⟨_, .toggle hnode⟩
      · cases node with
        | codec c => exact Or.inl ⟨_, .expand hnode⟩
        | graph g => exact Or.inr ⟨_, .notCodec hnode⟩
      · cases node with
        | codec c => exact Or.inr ⟨_, .notGraph hnode⟩
        | graph g => exact Or.inl ⟨_, .hide hnode⟩
    · exact Or.inr ⟨_, .node hverb fun node h => hnode ⟨node, h⟩⟩
  · by_cases hmode : verb = "standard"
    · subst hmode
      by_cases hcollapse : target = "collapse".toList
      · exact Or.inl ⟨.standard true, hcollapse ▸ .collapseStandard⟩
      · by_cases hexpand : target = "expand".toList
        · exact Or.inl ⟨.standard false, hexpand ▸ .expandStandard⟩
        · exact Or.inr ⟨_, .standardMode hcollapse hexpand⟩
    · exact Or.inr ⟨_, .unknownVerb hverb hmode⟩

/-! ## Whole texts -/

/-- A text is read as the verb and the target that it splits into. -/
theorem ofText_of_splits (h : Splits text verb target) :
    ∃ right, Text.trim right = target ∧ ofText text = ofVerb verb right := by
  obtain @⟨left, right, hcut, hleft⟩ := h
  have hother : ∀ c ∈ left, (decide (c ≠ ':')) = true := fun c hc =>
    decide_eq_true fun heq => hleft (heq ▸ hc)
  refine ⟨right, rfl, ?_⟩
  rw [ofText, hcut]
  simp only [List.dropWhile_append_of_pos hother, List.takeWhile_append_of_pos hother]
  simp

/-- A text without a colon has no target. -/
theorem ofText_of_no_colon (h : ':' ∉ text.toList) :
    ofText text = .error (.missingTarget text) := by
  have hall : ∀ c ∈ Text.trim text.toList, decide (c ≠ ':') = true := fun c hc =>
    decide_eq_true fun heq => h ((Text.mem_trim (by decide)).1 (heq ▸ hc))
  rw [ofText, List.dropWhile_eq_nil_iff.2 hall]

/-- A text splits at its first colon. -/
theorem exists_splits (h : ':' ∈ text.toList) : ∃ verb target, Splits text verb target := by
  obtain ⟨left, right, hcut, hleft⟩ := List.eq_append_cons_of_mem ((Text.mem_trim (by decide)).2 h)
  exact ⟨_, _, .cut hcut hleft⟩

theorem ofText_of_names (h : Names text a) : ofText text = .ok a := by
  obtain ⟨verb, target, hsplit, hspelling⟩ := h
  obtain ⟨right, rfl, heq⟩ := ofText_of_splits hsplit
  rw [heq, ofVerb_of_spelling hspelling]

theorem ofText_of_refuses (h : Refuses text e) : ofText text = .error e := by
  cases h with
  | missingTarget hcolon => exact ofText_of_no_colon hcolon
  | misspelling hsplit hwrong =>
    obtain ⟨right, rfl, heq⟩ := ofText_of_splits hsplit
    rw [heq, ofVerb_of_misspelling hwrong]

/-- Every text names an action or is to be refused. -/
theorem names_or_refuses (text : String) : (∃ a, Names text a) ∨ ∃ e, Refuses text e := by
  by_cases hcolon : ':' ∈ text.toList
  · obtain ⟨verb, target, hsplit⟩ := exists_splits hcolon
    rcases spelling_or_misspelling verb target with ⟨a, ha⟩ | ⟨e, he⟩
    · exact Or.inl ⟨a, verb, target, hsplit, ha⟩
    · exact Or.inr ⟨e, .misspelling hsplit he⟩
  · exact Or.inr ⟨_, .missingTarget hcolon⟩

/-- A text is accepted exactly if it names the action. -/
theorem ofText_eq_ok_iff : ofText text = .ok a ↔ Names text a := by
  refine ⟨fun h => ?_, ofText_of_names⟩
  rcases names_or_refuses text with ⟨a', ha'⟩ | ⟨e, he⟩
  · obtain rfl := Except.ok.inj ((ofText_of_names ha').symm.trans h)
    exact ha'
  · cases (ofText_of_refuses he).symm.trans h

/-- It is refused with an error exactly if it is to be refused with that one. -/
theorem ofText_eq_error_iff : ofText text = .error e ↔ Refuses text e := by
  refine ⟨fun h => ?_, ofText_of_refuses⟩
  rcases names_or_refuses text with ⟨a, ha⟩ | ⟨e', he'⟩
  · cases (ofText_of_names ha).symm.trans h
  · obtain rfl := Except.error.inj ((ofText_of_refuses he').symm.trans h)
    exact he'

/-! ## The text of an action -/

/-- No number is spelled that 32 bits do not hold. -/
theorem Spelling.inRange (h : Spelling verb target a) : a.InRange := by
  cases h with
  | toggle hnode => exact hnode.index_lt
  | expand hnode => exact hnode.index_lt
  | hide hnode => exact hnode.index_lt
  | collapseStandard => trivial
  | expandStandard => trivial

/-- A verb, a colon and a target without blanks are split again. -/
theorem splits_colon (verb target : String) (hverb : ∀ c ∈ verb.toList, Text.isBlank c = false)
    (hcolon : ':' ∉ verb.toList) (hlower : verb.toList.map Char.toLower = verb.toList)
    (htarget : ∀ c ∈ target.toList, Text.isBlank c = false) :
    Splits (verb ++ ":" ++ target) verb target.toList := by
  have hcut : Text.trim (verb ++ ":" ++ target).toList = verb.toList ++ ':' :: target.toList := by
    have htext : (verb ++ ":" ++ target).toList = verb.toList ++ ':' :: target.toList := by
      simp [String.toList_append]
    rw [htext]
    refine Text.trim_eq_self fun c hc => ?_
    rcases List.mem_append.1 hc with hc | hc
    · exact hverb c hc
    · rcases List.mem_cons.1 hc with rfl | hc
      · decide
      · exact htarget c hc
  have h := Splits.cut hcut hcolon
  rwa [Text.trim_eq_self hverb, Text.trim_eq_self htarget, hlower, String.ofList_toList] at h

/-- An action is named by its own text. -/
theorem names_text (h : a.InRange) : Names a.text a := by
  have hnode : ∀ node : NodeId, ∀ c ∈ node.text.toList, Text.isBlank c = false :=
    fun _ _ hc => NodeId.not_blank_of_mem_text hc
  have hword : ∀ {word : String}, (word.toList.all fun c => !Text.isBlank c) →
      ∀ c ∈ word.toList, Text.isBlank c = false := by
    simp
  cases a with
  | toggle node =>
    exact ⟨_, _,
      splits_colon "toggle" node.text (hword (by decide)) (by decide) (by decide) (hnode node),
      .toggle ((NodeId.spelling_text_iff node).2 h)⟩
  | expand c =>
    exact ⟨_, _,
      splits_colon "expand" c.text (hword (by decide)) (by decide) (by decide) (hnode (.codec c)),
      .expand ((NodeId.spelling_text_iff (.codec c)).2 h)⟩
  | hide g =>
    exact ⟨_, _,
      splits_colon "hide" g.text (hword (by decide)) (by decide) (by decide) (hnode (.graph g)),
      .hide ((NodeId.spelling_text_iff (.graph g)).2 h)⟩
  | standard collapse =>
    -- the mode is a word of its own, not a node
    have hsplits := fun mode : String =>
      splits_colon "standard" mode (hword (by decide)) (by decide) (by decide)
    cases collapse with
    | true => exact ⟨_, _, hsplits "collapse" (hword (by decide)), .collapseStandard⟩
    | false => exact ⟨_, _, hsplits "expand" (hword (by decide)), .expandStandard⟩

/-- The text of an action is read as the action exactly if its number has 32 bits. -/
theorem ofText_text_iff : ofText a.text = .ok a ↔ a.InRange := by
  refine ⟨fun h => ?_, fun h => ofText_of_names (names_text h)⟩
  obtain ⟨verb, target, -, hspelling⟩ := ofText_eq_ok_iff.1 h
  exact hspelling.inRange

/-- What reading a text as an action gives, and what reading the action's own text gives. -/
structure Legible (text : String) : Prop where
  ok_iff : ∀ a, ofText text = .ok a ↔ Names text a
  error_iff : ∀ e, ofText text = .error e ↔ Refuses text e
  reread : ∀ a, ofText text = .ok a → ofText a.text = .ok a

/-- Every text is legible, and the text of an action is read as that action exactly if its
    number has 32 bits. -/
theorem legible_texts : (∀ text, Legible text) ∧ ∀ a, ofText a.text = .ok a ↔ a.InRange := by
  refine ⟨fun text => ?_, fun a => ofText_text_iff⟩
  exact {
    ok_iff := fun a => ofText_eq_ok_iff
    error_iff := fun e => ofText_eq_error_iff
    reread := fun a h => by
      obtain ⟨verb, target, -, hspelling⟩ := ofText_eq_ok_iff.1 h
      exact ofText_text_iff.2 hspelling.inRange }

/-- Blanks, the case of the verb and of the letter, a sign and leading zeros do not matter. -/
example : ofText "\u2003 Toggle : c+007\n" = .ok (.toggle (.codec ⟨7⟩)) := by decide +kernel

end TraceFold.Action
