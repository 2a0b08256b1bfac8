import Asm6510.Reference.Document
import Mathlib

/-!
# Records apart

The records of a reference document are read one by one: what a document gives is what its records
give in documents of their own, one behind the other, and a record that is no object or has no name
gives nothing. A document fails as a whole in two ways: it has not the form of its kind, or a number
or truth value stands where items are expected, for the modes of a mnemonic or for a table of the
language.

* `unlisted?`: the values that stand for items and have none.
* `mnemonicsFault?`, `languageFault?`, `regionsFault?`: what is wrong with a document.
* `Language.concat`, `languageRecords`: the four tables of a language as one list of records.

Main statement: `read_documents_apart`. The second way to fail keeps all other records from being
read: `readMnemonics_one_bad_record`.
-/

namespace Asm6510

def Language.concat (languages : List Language) : Language :=
  ⟨languages.flatMap (·.directives), languages.flatMap (·.preprocessor),
    languages.flatMap (·.functions), languages.flatMap (·.constants)⟩

namespace Reference

/-! ## What is wrong with a document -/

/-- The kind of a value that counts as given and has no items: a number, or true. -/
def unlisted? : Json → Option String
  | .bool b => if b then some "bool" else none
  | .int n => if n = 0 then none else some "int"
  | .real x => if (Json.real x).isGiven then some "float" else none
  | _ => none

/-- The records in a place for items. -/
def listed (v : Json) : List Json :=
  (items v).toOption.getD []

/-- What is wrong with a record of a mnemonic: it has a name, and its modes have no items. -/
def modesFault? (record : Json) : Option String :=
  (recordName? "mnemonic" record).bind fun _ => unlisted? (record.member "addressing_modes")

def mnemonicsFault? (source : String) : Json → Option LoadError
  | .array records => (records.findSome? modesFault?).map .noItems
  | _ => some (.document source .notMnemonicList)

/-- The tables of a language, in the order that they are read in. -/
def languageTables : List String :=
  ["directives", "preprocessorStatements", "functions", "constants"]

def languageFault? (source : String) (data : Json) : Option LoadError :=
  match data with
  | .object _ =>
    (languageTables.findSome? fun table => unlisted? (data.member table)).map .noItems
  | _ => some (.document source .notLanguageObject)

/-- The records of a language, each with its table. -/
def languageRecords (data : Json) : List (String × Json) :=
  languageTables.flatMap fun table => (listed (data.member table)).map fun record => (table, record)

def regionsFault? (source : String) (data : Json) : Option LoadError :=
  match (data.member "memoryMap").member "regions" with
  | .object _ => none
  | _ => some (.document source .noRegions)

def regionEntries (data : Json) : List (String × Json) :=
  match (data.member "memoryMap").member "regions" with
  | .object entries => entries
  | _ => []

def memoryMap (entries : List (String × Json)) : Json :=
  .object [("memoryMap", .object [("regions", .object entries)])]

/-! ## Items -/

/-- Items are missing only where a number or truth value stands for them. -/
theorem items_eq (v : Json) :
    items v = ((unlisted? v).map .noItems).elim (.ok (listed v)) .error := by
  cases v with
  | null | string | array | object => rfl
  | bool b => cases b <;> rfl
  | int n =>
    by_cases hn : n = 0
    · subst hn
      rfl
    · simp [items, unlisted?, hn]
  | real x =>
    cases hx : (Json.real x).isGiven with
    | true => simp [items, unlisted?, hx]
    | false => simp [items, unlisted?, listed, hx, Except.toOption]

/-- A traversal stops at the first fault, and without one it gives all values. -/
theorem mapM_eq_elim {α β ε : Type} {f : α → Except ε β} {fault? : α → Option ε} {value : α → β}
    (h : ∀ x, f x = (fault? x).elim (.ok (value x)) .error) (xs : List α) :
    xs.mapM f = (xs.findSome? fault?).elim (.ok (xs.map value)) .error := by
  induction xs with
  | nil => rfl
  | cons x xs ih =>
    rw [List.mapM_cons, ih, h x, List.findSome?_cons]
    cases fault? x with
    | some e => rfl
    | none =>
      dsimp only [Option.elim_none]
      cases xs.findSome? fault? with
      | some e => rfl
      | none => rfl

/-! ## Mnemonics -/

/-- What a record of a mnemonic gives. -/
def mnemonicsOf (record : Json) : List Mnemonic :=
  (readMnemonic record).toOption.getD []

theorem readMnemonic_eq (record : Json) :
    readMnemonic record =
      ((modesFault? record).map .noItems).elim (.ok (mnemonicsOf record)) .error := by
  unfold mnemonicsOf readMnemonic modesFault?
  cases recordName? "mnemonic" record with
  | none => rfl
  | some name =>
    dsimp only [Option.bind_some]
    rw [items_eq]
    cases unlisted? (record.member "addressing_modes") with
    | none => rfl
    | some kind => rfl

theorem readMnemonics_array (source : String) (records : List Json) :
    readMnemonics source (.array records) =
      (mnemonicsFault? source (.array records)).elim
        (.ok (records.flatMap mnemonicsOf)) .error := by
  show (do return (← records.mapM readMnemonic).flatten) =
    ((records.findSome? modesFault?).map LoadError.noItems).elim _ _
  have hfault : records.findSome? (fun r => (modesFault? r).map LoadError.noItems) =
      (records.findSome? modesFault?).map LoadError.noItems := List.map_findSome?.symm
  rw [mapM_eq_elim readMnemonic_eq, hfault, List.flatMap_def]
  cases (records.findSome? modesFault?).map LoadError.noItems with
  | none => rfl
  | some e => rfl

theorem readMnemonics_single (source : String) (record : Json) :
    (readMnemonics source (.array [record])).toOption.getD [] = mnemonicsOf record := by
  rw [readMnemonics_array, mnemonicsOf, readMnemonic_eq]
  cases hfault : modesFault? record with
  | none => simp [mnemonicsFault?, hfault, Except.toOption, mnemonicsOf]
  | some kind => simp [mnemonicsFault?, hfault, Except.toOption]

/-! ## Languages -/

section Languages

variable {source table : String} {record : Json}

theorem items_single (name : String) :
    items ((Json.object [(table, .array [record])]).member name) =
      .ok (if name = table then [record] else []) := by
  by_cases hname : name = table
  · subst hname
    simp [Json.member, Json.member?, items]
  · simp [Json.member, Json.member?, List.lookup, hname, items, beq_eq_false_iff_ne.2 hname]

theorem readLanguage_of_items {members : List (String × Json)}
    {directives preprocessor functions constants : List Json}
    (hd : items ((Json.object members).member "directives") = .ok directives)
    (hp : items ((Json.object members).member "preprocessorStatements") = .ok preprocessor)
    (hf : items ((Json.object members).member "functions") = .ok functions)
    (hc : items ((Json.object members).member "constants") = .ok constants) :
    readLanguage source (.object members) = .ok
      ⟨directives.filterMap (readDirective? false), preprocessor.filterMap (readDirective? true),
        functions.filterMap readFunction?, constants.filterMap readConstant?⟩ := by
  simp only [readLanguage, hd, hp, hf, hc]
  rfl

/-- What a record gives to a table of a language in a document of its own. -/
def languageAlone (source : String) (r : String × Json) : Language :=
  (readLanguage source (.object [(r.1, .array [r.2])])).toOption.getD .empty

/-- A record alone gives itself to its table, and nothing to the others. -/
theorem languageAlone_eq (source table : String) (record : Json) :
    languageAlone source (table, record) =
      ⟨(if "directives" = table then [record] else []).filterMap (readDirective? false),
        (if "preprocessorStatements" = table then [record] else []).filterMap
          (readDirective? true),
        (if "functions" = table then [record] else []).filterMap readFunction?,
        (if "constants" = table then [record] else []).filterMap readConstant?⟩ := by
  rw [languageAlone, readLanguage_of_items (items_single _) (items_single _) (items_single _)
    (items_single _)]
  rfl

/-- The tables of a language are what their records give alone, one behind the other. -/
theorem concat_languageAlone (source : String) (data : Json) :
    Language.concat ((languageRecords data).map (languageAlone source)) =
      ⟨(listed (data.member "directives")).filterMap (readDirective? false),
        (listed (data.member "preprocessorStatements")).filterMap (readDirective? true),
        (listed (data.member "functions")).filterMap readFunction?,
        (listed (data.member "constants")).filterMap readConstant?⟩ := by
  have hnone : ∀ {α : Type} (records : List Json), records.flatMap (fun _ => ([] : List α)) = [] :=
    fun records => List.flatMap_eq_nil_iff.2 fun _ _ => rfl
  simp [Language.concat, languageRecords, languageTables, List.flatMap_map, languageAlone_eq,
    List.filterMap_eq_flatMap_toList, hnone]

theorem readLanguage_object (source : String) (members : List (String × Json)) :
    readLanguage source (.object members) =
      (languageFault? source (.object members)).elim
        (.ok (.concat ((languageRecords (.object members)).map (languageAlone source))))
        .error := by
  rw [concat_languageAlone]
  simp only [languageFault?, languageTables, List.findSome?_cons, List.findSome?_nil]
  -- the tables are read in their order, and the first one without items stops the reading
  cases hd : unlisted? ((Json.object members).member "directives") with
  | some kind =>
    simp only [readLanguage, items_eq, hd]
    rfl
  | none =>
    cases hp : unlisted? ((Json.object members).member "preprocessorStatements") with
    | some kind =>
      simp only [readLanguage, items_eq, hd, hp]
      rfl
    | none =>
      cases hf : unlisted? ((Json.object members).member "functions") with
      | some kind =>
        simp only [readLanguage, items_eq, hd, hp, hf]
        rfl
      | none =>
        simp only [readLanguage, items_eq, hd, hp, hf]
        cases unlisted? ((Json.object members).member "constants") with
        | some kind => rfl
        | none => rfl

end Languages

/-! ## Memory maps -/

theorem readRegions_eq (source : String) (data : Json) :
    readRegions source data =
      (regionsFault? source data).elim
        (.ok ((regionEntries data).flatMap fun e => (readRegion? e.1 e.2).toList)) .error := by
  unfold readRegions regionsFault? regionEntries
  cases (data.member "memoryMap").member "regions" with
  | object entries => simp [List.filterMap_eq_flatMap_toList]
  | _ => rfl

theorem readRegions_single (source : String) (e : String × Json) :
    (readRegions source (memoryMap [e])).toOption.getD [] = (readRegion? e.1 e.2).toList := by
  have hfault : regionsFault? source (memoryMap [e]) = none := rfl
  have hentries : regionEntries (memoryMap [e]) = [e] := rfl
  rw [readRegions_eq, hfault, hentries, List.flatMap_singleton, Option.elim_none,
    Except.toOption, Option.getD_some]

/-- **The records of a document are read apart**: a document gives what its records give in
documents of their own, one behind the other, or else it fails for the first thing that is wrong
with it. -/
theorem read_documents_apart (source : String) (data : Json) :
    readMnemonics source data =
        (mnemonicsFault? source data).elim
          (.ok ((listed data).flatMap fun record =>
            (readMnemonics source (.array [record])).toOption.getD []))
          .error ∧
      readLanguage source data =
        (languageFault? source data).elim
          (.ok (.concat ((languageRecords data).map (languageAlone source)))) .error ∧
      readRegions source data =
        (regionsFault? source data).elim
          (.ok ((regionEntries data).flatMap fun entry =>
            (readRegions source (memoryMap [entry])).toOption.getD []))
          .error := by
  refine ⟨?_, ?_, ?_⟩
  · cases data with
    | array records =>
      simp only [readMnemonics_single]
      exact readMnemonics_array source records
    | _ => rfl
  · cases data with
    | object members => exact readLanguage_object source members
    | _ => rfl
  · simp only [readRegions_single]
    exact readRegions_eq source data

/-- A document with a mnemonic that has a number for its modes, and another mnemonic. -/
def numberedModes : List Json :=
  [.object [("mnemonic", .string "LDA"), ("addressing_modes", .int 5)],
    .object [("mnemonic", .string "NOP")]]

/-- The number keeps the other mnemonic from being read, which alone is read. -/
theorem readMnemonics_one_bad_record :
    readMnemonics "<mnemonics>" (.array numberedModes) = .error (.noItems "int") ∧
      ∃ nop, readMnemonics "<mnemonics>" (.array (numberedModes.drop 1)) = .ok [nop] :=
  ⟨rfl, _, rfl⟩

end Reference

end Asm6510
