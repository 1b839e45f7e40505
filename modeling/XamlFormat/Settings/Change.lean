import XamlFormat.Data.Basic
import XamlFormat.Settings.Basic

/-! Changes to settings, as settings files and the command line make them. -/
namespace XamlFormat

inductive Change where
  | indentSize (n : Nat)
  | indentWithTabs (b : Bool)
  | attributesTolerance (n : Nat)
  | keepFirstAttributeOnSameLine (b : Bool)
  | maxAttributeCharactersPerLine (n : Nat)
  | maxAttributesPerLine (n : Nat)
  | noNewLineElements (names : List Chars)
  | groupsOnSeparateLines (b : Bool)
  | attributeIndentation (n : Nat)
  | continuationStyle (style : ContinuationStyle)
  | removeDesignTimeReferences (b : Bool)
  | ignoreDesignTimeQualifier (b : Bool)
  | enableAttributeReordering (b : Bool)
  | attributeGroups (groups : List Chars)
  | firstLineAttributes (names : List Chars)
  | orderAttributesByName (b : Bool)
  | endingBracketOnNewLine (b : Bool)
  | removeEndTagOfEmptyElement (b : Bool)
  | spaceBeforeClosingSlash (b : Bool)
  | rootWrap (rule : RootWrap)
  | stateGroupPlace (place : StateGroupPlace)
  | reorderGridChildren (b : Bool)
  | reorderCanvasChildren (b : Bool)
  | setterOrder (order : SetterOrder)
  | formatExtensions (b : Bool)
  | noNewLineExtensions (names : List Chars)
  | thicknessStyle (style : ThicknessStyle)
  | thicknessAttributes (names : List Chars)
  | commentSpaces (n : Nat)
  | suppressProcessing (b : Bool)
  | newLineStyle (style : NewLineStyle)
  | unescapedCharacters (chars : Chars)
  | designTimeNamespaces (names : List Chars)
deriving DecidableEq, Repr

namespace Change

def apply (s : Settings) : Change → Settings
  | indentSize n => { s with indentSize := n }
  | indentWithTabs b => { s with indentWithTabs := b }
  | attributesTolerance n => { s with attributesTolerance := n }
  | keepFirstAttributeOnSameLine b => { s with keepFirstAttributeOnSameLine := b }
  | maxAttributeCharactersPerLine n => { s with maxAttributeCharactersPerLine := n }
  | maxAttributesPerLine n => { s with maxAttributesPerLine := n }
  | noNewLineElements names => { s with noNewLineElements := names }
  | groupsOnSeparateLines b => { s with groupsOnSeparateLines := b }
  | attributeIndentation n => { s with attributeIndentation := n }
  | continuationStyle style => { s with continuationStyle := style }
  | removeDesignTimeReferences b => { s with removeDesignTimeReferences := b }
  | ignoreDesignTimeQualifier b => { s with ignoreDesignTimeQualifier := b }
  | enableAttributeReordering b => { s with enableAttributeReordering := b }
  | attributeGroups groups => { s with attributeGroups := groups }
  | firstLineAttributes names => { s with firstLineAttributes := names }
  | orderAttributesByName b => { s with orderAttributesByName := b }
  | endingBracketOnNewLine b => { s with endingBracketOnNewLine := b }
  | removeEndTagOfEmptyElement b => { s with removeEndTagOfEmptyElement := b }
  | spaceBeforeClosingSlash b => { s with spaceBeforeClosingSlash := b }
  | rootWrap rule => { s with rootWrap := rule }
  | stateGroupPlace place => { s with stateGroupPlace := place }
  | reorderGridChildren b => { s with reorderGridChildren := b }
  | reorderCanvasChildren b => { s with reorderCanvasChildren := b }
  | setterOrder order => { s with setterOrder := order }
  | formatExtensions b => { s with formatExtensions := b }
  | noNewLineExtensions names => { s with noNewLineExtensions := names }
  | thicknessStyle style => { s with thicknessStyle := style }
  | thicknessAttributes names => { s with thicknessAttributes := names }
  | commentSpaces n => { s with commentSpaces := n }
  | suppressProcessing b => { s with suppressProcessing := b }
  | newLineStyle style => { s with newLineStyle := style }
  | unescapedCharacters chars => { s with unescapedCharacters := chars }
  | designTimeNamespaces names => { s with designTimeNamespaces := names }

def textsData (names : List Chars) : Data := .list (names.map fun n => .text (String.ofList n))

def charsData (chars : Chars) : Data := .list (chars.map fun c => .text c.toString)

/-- The setting's name and its new value, as a settings file has them. -/
def entry : Change → String × Data
  | indentSize n => ("indent_size", .natural n)
  | indentWithTabs b => ("indent_with_tabs", .flag b)
  | attributesTolerance n => ("attributes_tolerance", .natural n)
  | keepFirstAttributeOnSameLine b => ("keep_first_attribute_on_same_line", .flag b)
  | maxAttributeCharactersPerLine n => ("max_attribute_characters_per_line", .natural n)
  | maxAttributesPerLine n => ("max_attributes_per_line", .natural n)
  | noNewLineElements names => ("no_new_line_elements", textsData names)
  | groupsOnSeparateLines b => ("put_attribute_order_rule_groups_on_separate_lines", .flag b)
  | attributeIndentation n => ("attribute_indentation", .natural n)
  | continuationStyle style =>
    ("attribute_indentation_style", .text (Choice.nameOf ContinuationStyle.choices style))
  | removeDesignTimeReferences b => ("remove_design_time_references", .flag b)
  | ignoreDesignTimeQualifier b => ("ignore_design_time_reference_prefix", .flag b)
  | enableAttributeReordering b => ("enable_attribute_reordering", .flag b)
  | attributeGroups groups => ("attribute_ordering_rule_groups", textsData groups)
  | firstLineAttributes names => ("first_line_attributes", textsData names)
  | orderAttributesByName b => ("order_attributes_by_name", .flag b)
  | endingBracketOnNewLine b => ("put_ending_bracket_on_new_line", .flag b)
  | removeEndTagOfEmptyElement b => ("remove_ending_tag_of_empty_element", .flag b)
  | spaceBeforeClosingSlash b => ("space_before_closing_slash", .flag b)
  | rootWrap rule =>
    ("root_element_line_break_rule", .text (Choice.nameOf RootWrap.choices rule))
  | stateGroupPlace place => ("reorder_vsm", .text (Choice.nameOf StateGroupPlace.choices place))
  | reorderGridChildren b => ("reorder_grid_children", .flag b)
  | reorderCanvasChildren b => ("reorder_canvas_children", .flag b)
  | setterOrder order => ("reorder_setters", .text (Choice.nameOf SetterOrder.choices order))
  | formatExtensions b => ("format_markup_extension", .flag b)
  | noNewLineExtensions names => ("no_new_line_markup_extensions", textsData names)
  | thicknessStyle style => ("thickness_style", .text (Choice.nameOf ThicknessStyle.choices style))
  | thicknessAttributes names => ("thickness_attributes", textsData names)
  | commentSpaces n => ("comment_spaces", .natural n)
  | suppressProcessing b => ("suppress_processing", .flag b)
  | newLineStyle style => ("new_line_style", .text (Choice.nameOf NewLineStyle.choices style))
  | unescapedCharacters chars => ("unescaped_attribute_characters", charsData chars)
  | designTimeNamespaces names => ("design_time_namespaces", textsData names)

end Change

namespace Settings

/-- The settings with changes applied in order, so that a later change wins. -/
def change (s : Settings) (changes : List Change) : Settings := changes.foldl Change.apply s

/-- The changes that make the settings out of any others. -/
def toChanges (s : Settings) : List Change :=
  [ .indentSize s.indentSize, .indentWithTabs s.indentWithTabs,
    .attributesTolerance s.attributesTolerance,
    .keepFirstAttributeOnSameLine s.keepFirstAttributeOnSameLine,
    .maxAttributeCharactersPerLine s.maxAttributeCharactersPerLine,
    .maxAttributesPerLine s.maxAttributesPerLine, .noNewLineElements s.noNewLineElements,
    .groupsOnSeparateLines s.groupsOnSeparateLines,
    .attributeIndentation s.attributeIndentation, .continuationStyle s.continuationStyle,
    .removeDesignTimeReferences s.removeDesignTimeReferences,
    .ignoreDesignTimeQualifier s.ignoreDesignTimeQualifier,
    .enableAttributeReordering s.enableAttributeReordering, .attributeGroups s.attributeGroups,
    .firstLineAttributes s.firstLineAttributes, .orderAttributesByName s.orderAttributesByName,
    .endingBracketOnNewLine s.endingBracketOnNewLine,
    .removeEndTagOfEmptyElement s.removeEndTagOfEmptyElement,
    .spaceBeforeClosingSlash s.spaceBeforeClosingSlash, .rootWrap s.rootWrap,
    .stateGroupPlace s.stateGroupPlace, .reorderGridChildren s.reorderGridChildren,
    .reorderCanvasChildren s.reorderCanvasChildren, .setterOrder s.setterOrder,
    .formatExtensions s.formatExtensions, .noNewLineExtensions s.noNewLineExtensions,
    .thicknessStyle s.thicknessStyle, .thicknessAttributes s.thicknessAttributes,
    .commentSpaces s.commentSpaces, .suppressProcessing s.suppressProcessing,
    .newLineStyle s.newLineStyle, .unescapedCharacters s.unescapedCharacters,
    .designTimeNamespaces s.designTimeNamespaces ]

end Settings
end XamlFormat
