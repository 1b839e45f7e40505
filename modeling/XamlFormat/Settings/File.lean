import XamlFormat.Settings.Change

/-! Settings files. A file is a table from names of settings to their values; names that are no
settings are skipped. -/
namespace XamlFormat
namespace SettingsFile

/-- Where a value of a settings file comes from. -/
inductive Format where
  | json
  | toml
deriving DecidableEq, Repr

/-- A setting as files name it, and the change that a value makes. -/
structure Field where
  name : String
  aliases : List String
  read : Format → Data → Option Change
  /-- May be missing at the end of a list of all values. -/
  optional : Bool := false

def number (f : Nat → Change) (_ : Format) (d : Data) : Option Change := d.natural?.map f

def flag (f : Bool → Change) (_ : Format) (d : Data) : Option Change := d.flag?.map f

def texts (f : List Chars → Change) (_ : Format) (d : Data) : Option Change :=
  d.texts?.map fun names => f (names.map String.toList)

/-- A list of names, or one text that is a comma separated list of them. -/
def names (f : List Chars → Change) (_ : Format) (d : Data) : Option Change :=
  match d with
  | .text list => some (f (Text.nameList list.toList))
  | d =>
    d.texts?.map fun names =>
      f ((names.map fun n => Text.trim n.toList).filter fun n => !n.isEmpty)

def singleChar? (s : String) : Option Char :=
  match s.toList with
  | [c] => some c
  | _ => none

def chars (f : Chars → Change) (_ : Format) (d : Data) : Option Change :=
  (d.texts?.bind fun names => names.mapM singleChar?).map f

def isEmptyValue : Format → Data → Bool
  | .json, .null => true
  | .toml, .list [] => true
  | .toml, .table [] => true
  | _, _ => false

/-- The name of a choice, or a table with that name and an empty value. -/
def choice {α : Type} (choices : List (Choice α)) (f : α → Change) (format : Format) (d : Data) :
    Option Change :=
  match d with
  | .text name => (Choice.ofName? choices name).map f
  | .table [(name, value)] =>
    if isEmptyValue format value then (Choice.ofName? choices name).map f else none
  | _ => none

/-- All settings in the order of their values in a list. -/
def fields : List Field :=
  [ ⟨"indent_size", ["IndentSize"], number .indentSize, false⟩,
    ⟨"indent_with_tabs", ["IndentWithTabs"], flag .indentWithTabs, false⟩,
    ⟨"attributes_tolerance", ["AttributesTolerance"], number .attributesTolerance, false⟩,
    ⟨"keep_first_attribute_on_same_line", ["KeepFirstAttributeOnSameLine"],
      flag .keepFirstAttributeOnSameLine, false⟩,
    ⟨"max_attribute_characters_per_line", ["MaxAttributeCharactersPerLine"],
      number .maxAttributeCharactersPerLine, false⟩,
    ⟨"max_attributes_per_line", ["MaxAttributesPerLine"], number .maxAttributesPerLine, false⟩,
    ⟨"no_new_line_elements", ["NoNewLineElements"], names .noNewLineElements, true⟩,
    ⟨"put_attribute_order_rule_groups_on_separate_lines",
      ["PutAttributeOrderRuleGroupsOnSeparateLines"], flag .groupsOnSeparateLines, false⟩,
    ⟨"attribute_indentation", ["AttributeIndentation"], number .attributeIndentation, false⟩,
    ⟨"attribute_indentation_style", ["AttributeIndentationStyle"],
      choice ContinuationStyle.choices .continuationStyle, false⟩,
    ⟨"remove_design_time_references", ["RemoveDesignTimeReferences"],
      flag .removeDesignTimeReferences, false⟩,
    ⟨"ignore_design_time_reference_prefix", ["IgnoreDesignTimeReferencePrefix"],
      flag .ignoreDesignTimeQualifier, false⟩,
    ⟨"enable_attribute_reordering", ["EnableAttributeReordering"],
      flag .enableAttributeReordering, false⟩,
    ⟨"attribute_ordering_rule_groups", ["AttributeOrderingRuleGroups"], texts .attributeGroups,
      false⟩,
    ⟨"first_line_attributes", ["FirstLineAttributes"], names .firstLineAttributes, true⟩,
    ⟨"order_attributes_by_name", ["OrderAttributesByName"], flag .orderAttributesByName, false⟩,
    ⟨"put_ending_bracket_on_new_line", ["PutEndingBracketOnNewLine"],
      flag .endingBracketOnNewLine, false⟩,
    ⟨"remove_ending_tag_of_empty_element", ["RemoveEndingTagOfEmptyElement"],
      flag .removeEndTagOfEmptyElement, false⟩,
    ⟨"space_before_closing_slash", ["SpaceBeforeClosingSlash"], flag .spaceBeforeClosingSlash,
      false⟩,
    ⟨"root_element_line_break_rule", ["RootElementLineBreakRule"],
      choice RootWrap.choices .rootWrap, false⟩,
    ⟨"reorder_vsm", ["ReorderVSM"], choice StateGroupPlace.choices .stateGroupPlace, false⟩,
    ⟨"reorder_grid_children", ["ReorderGridChildren"], flag .reorderGridChildren, false⟩,
    ⟨"reorder_canvas_children", ["ReorderCanvasChildren"], flag .reorderCanvasChildren, false⟩,
    ⟨"reorder_setters", ["ReorderSetters"], choice SetterOrder.choices .setterOrder, false⟩,
    ⟨"format_markup_extension", ["FormatMarkupExtension"], flag .formatExtensions, false⟩,
    ⟨"no_new_line_markup_extensions", ["NoNewLineMarkupExtensions"], names .noNewLineExtensions,
      true⟩,
    ⟨"thickness_style", ["ThicknessStyle"], choice ThicknessStyle.choices .thicknessStyle, false⟩,
    ⟨"thickness_attributes", ["ThicknessAttributes"], names .thicknessAttributes, true⟩,
    ⟨"comment_spaces", ["CommentSpaces", "CommentPadding"], number .commentSpaces, false⟩,
    ⟨"suppress_processing", ["SuppressProcessing"], flag .suppressProcessing, false⟩,
    ⟨"new_line_style", ["NewLineStyle"], choice NewLineStyle.choices .newLineStyle, false⟩,
    ⟨"unescaped_attribute_characters", ["UnescapedAttributeCharacters"],
      chars .unescapedCharacters, false⟩,
    ⟨"design_time_namespaces", ["DesignTimeNamespaces"], names .designTimeNamespaces, true⟩ ]

def field? (key : String) : Option Field :=
  fields.find? fun f => f.name == key || f.aliases.contains key

/-- The change of one value; a missing value changes nothing. -/
def changeOf? (format : Format) (f : Field) (d : Data) : Option (List Change) :=
  match d with
  | .null => some []
  | d => (f.read format d).map fun c => [c]

/-- The changes of the entries of a table. A setting that is given twice, under whatever names, is
an error; `seen` holds those given so far. -/
def ofEntries? (format : Format) (seen : List String) :
    List (String × Data) → Option (List Change)
  | [] => some []
  | (key, value) :: rest =>
    match field? key with
    | none => ofEntries? format seen rest
    | some f =>
      if seen.contains f.name then none
      else do
        let change ← changeOf? format f value
        let more ← ofEntries? format (f.name :: seen) rest
        some (change ++ more)

def ofItems? (format : Format) : List Field → List Data → Option (List Change)
  | [], [] => some []
  | [], _ :: _ => none
  | f :: fs, [] => if f.optional then ofItems? format fs [] else none
  | f :: fs, d :: ds => do
    let change ← changeOf? format f d
    let more ← ofItems? format fs ds
    some (change ++ more)

def changes? (format : Format) (d : Data) : Option (List Change) :=
  match d with
  | .table entries => ofEntries? format [] entries
  | .list items => ofItems? format fields items
  | _ => none

end SettingsFile
end XamlFormat
