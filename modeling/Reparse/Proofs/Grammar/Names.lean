import Mathlib.Data.List.Induction
import Mathlib.Data.List.Nodup
import Reparse.Proofs.Grammar.Numbering

/-!
# Numbering names one after the other

A name gets the next number exactly when all names together can be numbered.
What one name needs adds up over a list: tokens, rules and literals are numbered
if each of them is allowed and all names together can be numbered, and the
numbers follow the order of the list.
-/

namespace Reparse

theorem encode_ne_nil {text : String} (filled : text ≠ "") :
    Utf8.encode text ≠ [] := by
  intro none
  apply filled
  rw [Utf8.encode, Array.toList_eq_nil_iff] at none
  apply String.utf8ByteSize_eq_zero_iff.mp
  exact congrArg Array.size none

/-- The texts that are met for the first time, in order. -/
def freshTexts (declared texts : List String) : List String :=
  texts.eraseDups.filter (· ∉ declared)

theorem mem_freshTexts {declared texts : List String} {text : String} :
    text ∈ freshTexts declared texts ↔ text ∈ texts ∧ text ∉ declared := by
  simp [freshTexts]

theorem freshTexts_concat (declared texts : List String) (text : String) :
    freshTexts declared (texts ++ [text]) =
      if text ∈ declared ∨ text ∈ texts then freshTexts declared texts
      else freshTexts declared texts ++ [text] := by
  rw [freshTexts, List.eraseDups_append, List.filter_append]
  by_cases met : text ∈ texts
  · simp [met, List.removeAll, freshTexts]
  · by_cases taken : text ∈ declared
    · simp [met, taken, List.removeAll, freshTexts]
    · simp [met, taken, List.removeAll, List.eraseDups_cons, freshTexts]

theorem nodup_freshTexts (declared texts : List String) :
    (freshTexts declared texts).Nodup := by
  induction texts using List.reverseRecOn with
  | nil => exact List.nodup_nil
  | append_singleton texts text induction =>
      rw [freshTexts_concat]
      split
      · exact induction
      · next new =>
          have absent : text ∉ freshTexts declared texts := fun member =>
            new (.inr (mem_freshTexts.mp member).1)
          rw [← List.concat_eq_append]
          exact induction.concat absent

/-- Names that can be numbered: they are told apart, none is that of error
nodes, and there are not too many. -/
structure Orderly (names : List String) : Prop where
  distinct : names.Nodup
  notError : errorName ∉ names
  within : names.length ≤ Symbol.capacity

theorem orderly_nil : Orderly [] :=
  ⟨List.nodup_nil, List.not_mem_nil, Nat.zero_le _⟩

theorem Orderly.before {names later : List String}
    (orderly : Orderly (names ++ later)) : Orderly names := by
  constructor
  · exact (List.nodup_append.mp orderly.distinct).1
  · intro member
    exact orderly.notError (List.mem_append_left _ member)
  · have within := orderly.within
    rw [List.length_append] at within
    omega

theorem Orderly.concat_iff {names : List String} (orderly : Orderly names)
    {name : String} :
    Orderly (names ++ [name]) ↔
      name ≠ errorName ∧ name ∉ names ∧ names.length < Symbol.capacity := by
  constructor
  · rintro ⟨distinct, notError, within⟩
    rw [List.length_append, List.length_singleton] at within
    refine ⟨?_, ?_, within⟩
    · rintro rfl
      exact notError List.mem_concat_self
    · intro member
      exact (List.nodup_append.mp distinct).2.2 name member name
        List.mem_cons_self rfl
  · rintro ⟨notError, absent, room⟩
    constructor
    · rw [← List.concat_eq_append]
      exact orderly.distinct.concat absent
    · intro member
      rcases List.mem_append.mp member with earlier | last
      · exact orderly.notError earlier
      · exact notError (List.mem_singleton.mp last).symm
    · rw [List.length_append, List.length_singleton]
      exact room

namespace Numbering

variable {numbering : Numbering} {name : String}

/-- The names numbered so far. -/
def names (numbering : Numbering) : List String :=
  numbering.infos.map SymbolInfo.name

theorem isSome_index?_iff :
    (numbering.index? name).isSome = true ↔ name ∈ numbering.names := by
  rw [index?, Option.isSome_map, List.findIdx?_isSome, List.any_eq_true,
    names, List.mem_map]
  simp only [beq_iff_eq]

/-- The number of a name is where it stands. -/
theorem index?_eq_some_iff (distinct : numbering.names.Nodup)
    {symbol : Symbol} :
    numbering.index? name = some symbol ↔
      numbering.names[symbol.id]? = some name := by
  have index : numbering.index? name = some symbol ↔
      (numbering.infos.findIdx? fun info => info.name == name) =
        some symbol.id := by
    rw [index?, Option.map_eq_some_iff]
    constructor
    · rintro ⟨_, found, rfl⟩
      exact found
    · intro found
      exact ⟨symbol.id, found, rfl⟩
  rw [index, List.findIdx?_eq_some_iff_getElem, List.getElem?_eq_some_iff]
  simp only [names, List.length_map, List.getElem_map, beq_iff_eq]
  constructor
  · rintro ⟨inside, same, _⟩
    exact ⟨inside, same⟩
  · rintro ⟨inside, same⟩
    refine ⟨inside, same, fun earlier less found => ?_⟩
    have insideNames : symbol.id < numbering.names.length := by
      rw [names, List.length_map]
      exact inside
    have equal : numbering.names[earlier] =
        numbering.names[symbol.id] := by
      simp only [names, List.getElem_map, found, same]
    exact Nat.ne_of_lt less (distinct.getElem_inj_iff.mp equal)

/-- A name gets the next number exactly when all names together can be
numbered. -/
theorem enter_eq_some_iff (orderly : Orderly numbering.names)
    {kind : SymbolKind} {later : Numbering} :
    numbering.enter name kind = some later ↔
      Orderly (numbering.names ++ [name]) ∧
        { numbering with infos := numbering.infos ++ [⟨name, kind⟩] } =
          later := by
  have length : numbering.names.length = numbering.infos.length :=
    List.length_map _
  rw [orderly.concat_iff, enter]
  split
  · next isError => simp [isError]
  · next notError =>
      split
      · next taken => simp [isSome_index?_iff.mp taken]
      · next free =>
          rw [isSome_index?_iff] at free
          split
          · next full =>
              rw [length]
              simp [Nat.not_lt_of_le full]
          · next room =>
              rw [length]
              simp [notError, free, Nat.lt_of_not_le room]

/-- Numbering comes to these symbols under this condition and fails under any
other. -/
structure Yields (outcome : Option Numbering) (condition : Prop)
    (infos : List SymbolInfo) : Prop where
  exists_of : condition → ∃ numbering, outcome = some numbering ∧
    numbering.infos = infos
  of_eq : ∀ {numbering}, outcome = some numbering →
    condition ∧ numbering.infos = infos

section Yields

variable {outcome : Option Numbering} {condition other : Prop}
  {infos : List SymbolInfo}

theorem Yields.congr (yields : Yields outcome condition infos)
    (same : condition ↔ other) : Yields outcome other infos :=
  propext same ▸ yields

/-- The conditions of two steps that follow each other add up. -/
theorem Yields.bind {next : Numbering → Option Numbering}
    {later : List SymbolInfo} (first : Yields outcome condition infos)
    (second : condition → ∀ {numbering}, numbering.infos = infos →
      Yields (next numbering) other later) :
    Yields (outcome.bind next) (condition ∧ other) later := by
  constructor
  · rintro ⟨met, metLater⟩
    obtain ⟨middle, found, reached⟩ := first.exists_of met
    obtain ⟨last, followed, reachedLast⟩ :=
      (second met reached).exists_of metLater
    exact ⟨last, Option.bind_eq_some_iff.mpr ⟨middle, found, followed⟩,
      reachedLast⟩
  · intro last composed
    obtain ⟨middle, found, followed⟩ := Option.bind_eq_some_iff.mp composed
    obtain ⟨met, reached⟩ := first.of_eq found
    obtain ⟨metLater, reachedLast⟩ := (second met reached).of_eq followed
    exact ⟨⟨met, metLater⟩, reachedLast⟩

theorem Yields.map {change : Numbering → Numbering}
    (yields : Yields outcome condition infos)
    (keeps : ∀ numbering, (change numbering).infos = numbering.infos) :
    Yields (outcome.map change) condition infos := by
  constructor
  · intro met
    obtain ⟨numbering, found, reached⟩ := yields.exists_of met
    rw [found]
    exact ⟨_, rfl, (keeps numbering).trans reached⟩
  · intro last mapped
    obtain ⟨numbering, found, rfl⟩ := Option.map_eq_some_iff.mp mapped
    rw [keeps]
    exact yields.of_eq found

theorem Yields.refused (unmet : ¬condition) : Yields none condition infos := by
  constructor
  · exact fun met => absurd met unmet
  · rintro _ ⟨⟩

/-- A step that is taken only where something does not hold. -/
theorem Yields.unless {refused : Prop} [Decidable refused]
    (yields : ¬refused → Yields outcome condition infos) :
    Yields (if refused then none else outcome) (¬refused ∧ condition)
      infos := by
  split
  · next isRefused => exact .refused fun met => met.1 isRefused
  · next accepted =>
      exact (yields accepted).congr (and_iff_right accepted).symm

end Yields

theorem enter_yields {infos : List SymbolInfo}
    (reached : numbering.infos = infos)
    (orderly : Orderly (infos.map SymbolInfo.name)) {kind : SymbolKind} :
    Yields (numbering.enter name kind)
      (Orderly ((infos ++ [SymbolInfo.mk name kind]).map SymbolInfo.name))
      (infos ++ [⟨name, kind⟩]) := by
  subst reached
  rw [List.map_append]
  constructor
  · intro orderlyLater
    exact ⟨_, (enter_eq_some_iff orderly).mpr ⟨orderlyLater, rfl⟩, rfl⟩
  · intro later entered
    obtain ⟨orderlyLater, rfl⟩ := (enter_eq_some_iff orderly).mp entered
    exact ⟨orderlyLater, rfl⟩

variable {α : Type} {step : Numbering → α → Option Numbering}
  {infosOf : List α → List SymbolInfo} {allowed : α → Prop}

/-- After the items so far the numbering holds these symbols, and the step adds
what the next item adds to them, if the item is allowed and all names together
can be numbered. -/
structure Enters (step : Numbering → α → Option Numbering)
    (infosOf : List α → List SymbolInfo) (allowed : α → Prop) : Prop where
  grows : ∀ done later, infosOf done <+: infosOf (done ++ later)
  step_yields : ∀ {numbering done item}, numbering.infos = infosOf done →
    (∀ earlier ∈ done, allowed earlier) →
      Orderly ((infosOf done).map SymbolInfo.name) →
        Yields (step numbering item)
          (allowed item ∧
            Orderly ((infosOf (done ++ [item])).map SymbolInfo.name))
          (infosOf (done ++ [item]))

theorem Enters.foldlM (enters : Enters step infosOf allowed) {done : List α}
    (reached : numbering.infos = infosOf done)
    (allowedDone : ∀ earlier ∈ done, allowed earlier)
    (orderly : Orderly ((infosOf done).map SymbolInfo.name)) (items : List α) :
    Yields (items.foldlM step numbering)
      ((∀ item ∈ items, allowed item) ∧
        Orderly ((infosOf (done ++ items)).map SymbolInfo.name))
      (infosOf (done ++ items)) := by
  induction items generalizing numbering done with
  | nil =>
      rw [List.append_nil]
      constructor
      · intro _
        exact ⟨numbering, rfl, reached⟩
      · rintro _ ⟨⟩
        exact ⟨⟨List.forall_mem_nil _, orderly⟩, reached⟩
  | cons item items induction =>
      have allowedNext : allowed item →
          ∀ earlier ∈ done ++ [item], allowed earlier := by
        intro allowedItem earlier member
        rcases List.mem_append.mp member with before | last
        · exact allowedDone earlier before
        · rw [List.mem_singleton.mp last]
          exact allowedItem
      have orderlyBefore :
          Orderly ((infosOf (done ++ [item] ++ items)).map SymbolInfo.name) →
            Orderly ((infosOf (done ++ [item])).map SymbolInfo.name) := by
        obtain ⟨rest, whole⟩ := enters.grows (done ++ [item]) items
        rw [← whole, List.map_append]
        exact Orderly.before
      rw [List.foldlM_cons, List.forall_mem_cons, List.append_cons]
      have first : Yields (step numbering item) _ _ :=
        enters.step_yields reached allowedDone orderly
      have second : allowed item ∧
          Orderly ((infosOf (done ++ [item])).map SymbolInfo.name) →
            ∀ {middle : Numbering}, middle.infos = infosOf (done ++ [item]) →
              Yields (items.foldlM step middle)
                ((∀ item ∈ items, allowed item) ∧
                  Orderly ((infosOf (done ++ [item] ++ items)).map
                    SymbolInfo.name))
                (infosOf (done ++ [item] ++ items)) := by
        rintro ⟨allowedItem, orderlyMiddle⟩ middle reachedMiddle
        exact induction reachedMiddle (allowedNext allowedItem) orderlyMiddle
      refine (first.bind second).congr ⟨?_, ?_⟩
      · rintro ⟨⟨allowedItem, _⟩, allowedItems, orderlyLast⟩
        exact ⟨⟨allowedItem, allowedItems⟩, orderlyLast⟩
      · rintro ⟨⟨allowedItem, allowedItems⟩, orderlyLast⟩
        exact ⟨⟨allowedItem, orderlyBefore orderlyLast⟩, allowedItems,
          orderlyLast⟩

/-- What it takes to number the names of all items, where the first one meets
the symbols that stand before all items. -/
theorem Enters.foldlM_all (enters : Enters step infosOf allowed)
    {declared : List SymbolInfo} (start : infosOf [] = declared)
    (reached : numbering.infos = declared)
    (orderly : Orderly (declared.map SymbolInfo.name)) (items : List α) :
    Yields (items.foldlM step numbering)
      ((∀ item ∈ items, allowed item) ∧
        Orderly ((infosOf items).map SymbolInfo.name))
      (infosOf items) := by
  subst start
  exact enters.foldlM reached (List.forall_mem_nil _) orderly items

end Numbering

/-- The name and the kind of the token as a symbol. -/
def TokenDeclaration.info (token : TokenDeclaration) : SymbolInfo :=
  ⟨token.name, token.kind⟩

/-- The name and the kind of the rule as a symbol. -/
def RuleDeclaration.info (rule : RuleDeclaration) : SymbolInfo :=
  ⟨rule.name, if isHiddenName rule.name then .hidden else .visible⟩

/-- The symbol of a literal met inside a rule. -/
def literalInfo (text : String) : SymbolInfo := ⟨text, .literal⟩

namespace Numbering

variable {numbering : Numbering} {text : String}

theorem enterToken_yields {infos : List SymbolInfo}
    (reached : numbering.infos = infos)
    (orderly : Orderly (infos.map SymbolInfo.name)) {token : TokenDeclaration} :
    Yields (numbering.enterToken token)
      (token.pattern ≠ .literal [] ∧
        Orderly ((infos ++ [token.info]).map SymbolInfo.name))
      (infos ++ [token.info]) :=
  Yields.unless fun _ => (enter_yields reached orderly).map fun _ => rfl

theorem enters_token :
    Enters enterToken (List.map TokenDeclaration.info)
      fun token => token.pattern ≠ .literal [] := by
  constructor
  · intro done later
    rw [List.map_append]
    exact List.prefix_append _ _
  intro numbering done token reached _ orderly
  rw [List.map_append]
  exact enterToken_yields reached orderly

/-- The symbols after some rules. -/
def withRules (declared : List SymbolInfo) (rules : List RuleDeclaration) :
    List SymbolInfo :=
  declared ++ rules.map RuleDeclaration.info

theorem enters_rule (declared : List SymbolInfo) :
    Enters enterRule (withRules declared) fun _ => True := by
  constructor
  · intro done later
    rw [withRules, withRules, List.map_append, ← List.append_assoc]
    exact List.prefix_append _ _
  intro numbering done rule reached _ orderly
  have next : withRules declared (done ++ [rule]) =
      withRules declared done ++ [rule.info] := by
    rw [withRules, List.map_append, ← List.append_assoc]
    rfl
  rw [next, true_and]
  exact enter_yields reached orderly

/-- The symbols after some literals: the ones declared before all literals, and
each text met for the first time. -/
def withLiterals (declared : List SymbolInfo) (texts : List String) :
    List SymbolInfo :=
  declared ++
    (freshTexts (declared.map SymbolInfo.name) texts).map literalInfo

/-- What a literal asks of the symbols declared before all literals: that its
text is a keyword if it is taken, and is not empty otherwise. -/
def LiteralAllowed (declared : List SymbolInfo) (text : String) : Prop :=
  (text ∈ declared.map SymbolInfo.name → literalInfo text ∈ declared) ∧
    (text ∉ declared.map SymbolInfo.name → text ≠ "")

theorem mem_map_literalInfo {texts : List String} :
    literalInfo text ∈ texts.map literalInfo ↔ text ∈ texts := by
  simp [literalInfo]

theorem names_withLiterals (declared : List SymbolInfo) (texts : List String) :
    (withLiterals declared texts).map SymbolInfo.name =
      declared.map SymbolInfo.name ++
        freshTexts (declared.map SymbolInfo.name) texts := by
  simp [withLiterals, literalInfo, Function.comp_def]

theorem mem_names_withLiterals {declared : List SymbolInfo}
    {texts : List String} :
    text ∈ (withLiterals declared texts).map SymbolInfo.name ↔
      text ∈ declared.map SymbolInfo.name ∨ text ∈ texts := by
  rw [names_withLiterals, List.mem_append, mem_freshTexts]
  tauto

/-- A name that was numbered has the kind it was numbered with. -/
theorem kind_index?_iff (distinct : numbering.names.Nodup) {symbol : Symbol}
    {kind : SymbolKind} (found : numbering.index? text = some symbol) :
    numbering.infos[symbol.id]?.map SymbolInfo.kind = some kind ↔
      ⟨text, kind⟩ ∈ numbering.infos := by
  have name := (index?_eq_some_iff distinct).mp found
  rw [names, List.getElem?_map, Option.map_eq_some_iff] at name
  obtain ⟨info, entry, rfl⟩ := name
  rw [entry, Option.map_some, Option.some.injEq]
  constructor
  · rintro rfl
    exact List.mem_of_getElem? entry
  · intro member
    have same : info = ⟨info.name, kind⟩ :=
      List.inj_on_of_nodup_map distinct (List.mem_of_getElem? entry) member rfl
    exact congrArg SymbolInfo.kind same

/-- A text that is taken is left alone if it is a literal. -/
theorem enterLiteral_taken (orderly : Orderly numbering.names)
    (taken : text ∈ numbering.names) :
    Yields (numbering.enterLiteral text) (literalInfo text ∈ numbering.infos)
      numbering.infos := by
  obtain ⟨symbol, found⟩ :=
    Option.isSome_iff_exists.mp (isSome_index?_iff.mpr taken)
  simp only [enterLiteral, literalInfo, found,
    kind_index?_iff orderly.distinct found]
  split
  · next isLiteral =>
      exact ⟨fun _ => ⟨_, rfl, rfl⟩, by rintro _ ⟨⟩; exact ⟨isLiteral, rfl⟩⟩
  · next other => exact .refused other

/-- A text that is free is numbered unless it is empty. -/
theorem enterLiteral_free (orderly : Orderly numbering.names)
    (free : text ∉ numbering.names) :
    Yields (numbering.enterLiteral text)
      (text ≠ "" ∧
        Orderly ((numbering.infos ++ [literalInfo text]).map SymbolInfo.name))
      (numbering.infos ++ [literalInfo text]) := by
  have missing : numbering.index? text = none := by
    rw [← Option.not_isSome_iff_eq_none, isSome_index?_iff]
    exact free
  simp only [enterLiteral, missing]
  refine Yields.unless fun filled => ?_
  refine (enterToken_yields rfl orderly).congr (and_iff_right fun same => ?_)
  exact encode_ne_nil filled (Pattern.literal.inj same)

theorem enters_literal (declared : List SymbolInfo) :
    Enters enterLiteral (withLiterals declared) (LiteralAllowed declared) := by
  constructor
  · intro done later
    rw [withLiterals, withLiterals, freshTexts, freshTexts,
      List.eraseDups_append, List.filter_append, List.map_append,
      ← List.append_assoc]
    exact List.prefix_append _ _
  intro numbering done text reached allowedDone orderly
  rw [← reached] at orderly
  have taken_iff : text ∈ numbering.names ↔
      text ∈ declared.map SymbolInfo.name ∨ text ∈ done := by
    rw [names, reached]
    exact mem_names_withLiterals
  have next : withLiterals declared (done ++ [text]) =
      if text ∈ numbering.names then numbering.infos
      else numbering.infos ++ [literalInfo text] := by
    simp only [withLiterals, freshTexts_concat, taken_iff, reached]
    split
    · rfl
    · rw [List.map_append, List.append_assoc]
      rfl
  rw [next]
  by_cases taken : text ∈ numbering.names
  · have allowed_iff : LiteralAllowed declared text ↔
        literalInfo text ∈ numbering.infos := by
      rw [reached, withLiterals, List.mem_append, mem_map_literalInfo,
        mem_freshTexts]
      constructor
      · intro allowed
        by_cases before : text ∈ declared.map SymbolInfo.name
        · exact .inl (allowed.1 before)
        · exact .inr ⟨(taken_iff.mp taken).resolve_left before, before⟩
      · rintro (member | ⟨met, _⟩)
        · exact ⟨fun _ => member, fun absent =>
            absurd (List.mem_map_of_mem member) absent⟩
        · exact allowedDone text met
    rw [if_pos taken, allowed_iff]
    exact (enterLiteral_taken orderly taken).congr (and_iff_left orderly).symm
  · have new := mt taken_iff.mpr taken
    have allowed_iff : LiteralAllowed declared text ↔ text ≠ "" := by
      simp [LiteralAllowed, not_or.mp new]
    rw [if_neg taken, allowed_iff]
    exact enterLiteral_free orderly taken

end Numbering

end Reparse
