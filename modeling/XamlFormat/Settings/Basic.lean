import XamlFormat.Settings.Choice

/-! The settings of the formatter, their defaults and their limits. -/
namespace XamlFormat

/-- The namespace of design-time attributes such as `d:DesignWidth`. -/
def designNamespace : Chars := "http://schemas.microsoft.com/expression/blend/2008".toList

/-- The namespace of `mc:Ignorable`. -/
def compatibilityNamespace : Chars :=
  "http://schemas.openxmlformats.org/markup-compatibility/2006".toList

structure Settings where
  /-- Columns for each level of nesting. -/
  indentSize : Nat
  indentWithTabs : Bool
  /-- Attributes beyond `maxAttributesPerLine` that a tag may have before it is wrapped. -/
  attributesTolerance : Nat
  keepFirstAttributeOnSameLine : Bool
  /-- Zero stands for no limit. -/
  maxAttributeCharactersPerLine : Nat
  maxAttributesPerLine : Nat
  /-- Elements whose tags are never wrapped. -/
  noNewLineElements : List Chars
  /-- Start a line with every ordering group when a tag is wrapped. -/
  groupsOnSeparateLines : Bool
  /-- Columns before a wrapped attribute; zero aligns with the first attribute. -/
  attributeIndentation : Nat
  continuationStyle : ContinuationStyle
  removeDesignTimeReferences : Bool
  /-- Order design-time attributes as if they had no qualifier. -/
  ignoreDesignTimeQualifier : Bool
  enableAttributeReordering : Bool
  /-- Each group is a comma separated list of name patterns. -/
  attributeGroups : List Chars
  /-- Attributes that stay on the line of the element name, in this order. -/
  firstLineAttributes : List Chars
  orderAttributesByName : Bool
  endingBracketOnNewLine : Bool
  removeEndTagOfEmptyElement : Bool
  spaceBeforeClosingSlash : Bool
  rootWrap : RootWrap
  stateGroupPlace : StateGroupPlace
  reorderGridChildren : Bool
  reorderCanvasChildren : Bool
  setterOrder : SetterOrder
  formatExtensions : Bool
  /-- Extensions that are never split over lines. -/
  noNewLineExtensions : List Chars
  thicknessStyle : ThicknessStyle
  thicknessAttributes : List Chars
  /-- Spaces inside the delimiters of a one line comment. -/
  commentSpaces : Nat
  /-- Leave documents as they are. -/
  suppressProcessing : Bool
  newLineStyle : NewLineStyle
  /-- Characters written as they are in attribute values. -/
  unescapedCharacters : Chars
  designTimeNamespaces : List Chars
deriving DecidableEq, Repr

namespace Settings

def defaultGroups : List Chars :=
  [ "x:Class",
    "xmlns, xmlns:x",
    "xmlns:*",
    "x:Key, Key, x:Name, Name, x:Uid, Uid, Title",
    "Grid.Row, Grid.RowSpan, Grid.Column, Grid.ColumnSpan, Canvas.Left, Canvas.Top, " ++
      "Canvas.Right, Canvas.Bottom",
    "Width, Height, MinWidth, MinHeight, MaxWidth, MaxHeight",
    "Margin, Padding, HorizontalAlignment, VerticalAlignment, HorizontalContentAlignment, " ++
      "VerticalContentAlignment, Panel.ZIndex",
    "*:*, *",
    "PageSource, PageIndex, Offset, Color, TargetName, Property, Value, StartPoint, EndPoint",
    "mc:Ignorable, d:IsDataSource, d:LayoutOverrides, d:IsStaticText",
    "Storyboard.*, From, To, Duration" ].map String.toList

def defaultNoNewLineElements : List Chars :=
  [ "RadialGradientBrush", "GradientStop", "LinearGradientBrush", "ScaleTransform",
    "SkewTransform", "RotateTransform", "TranslateTransform", "Trigger", "Condition",
    "Setter" ].map String.toList

def defaultThicknessAttributes : List Chars :=
  [ "Margin", "Padding", "BorderThickness", "ThumbnailClipMargin" ].map String.toList

/-- The settings of a project that sets nothing. -/
def standard : Settings where
  indentSize := 4
  indentWithTabs := false
  attributesTolerance := 2
  keepFirstAttributeOnSameLine := false
  maxAttributeCharactersPerLine := 0
  maxAttributesPerLine := 1
  noNewLineElements := defaultNoNewLineElements
  groupsOnSeparateLines := false
  attributeIndentation := 0
  continuationStyle := .spaces
  removeDesignTimeReferences := false
  ignoreDesignTimeQualifier := false
  enableAttributeReordering := true
  attributeGroups := defaultGroups
  firstLineAttributes := []
  orderAttributesByName := true
  endingBracketOnNewLine := false
  removeEndTagOfEmptyElement := true
  spaceBeforeClosingSlash := true
  rootWrap := .standard
  stateGroupPlace := .last
  reorderGridChildren := false
  reorderCanvasChildren := false
  setterOrder := .keep
  formatExtensions := true
  noNewLineExtensions := [ "x:Bind", "Binding" ].map String.toList
  thicknessStyle := .comma
  thicknessAttributes := defaultThicknessAttributes
  commentSpaces := 2
  suppressProcessing := false
  newLineStyle := .system
  unescapedCharacters := []
  designTimeNamespaces := [designNamespace]

instance : Inhabited Settings := ⟨standard⟩

def maxIndentSize : Nat := 16

def maxCommentSpaces : Nat := 16

/-- Numbers in settings have 64 bits: they are below this. -/
def wordSize : Nat := 0x10000000000000000

inductive Problem where
  | noIndent
  | indentTooLarge (size : Nat)
  | noAttributesPerLine
  | commentTooWide (spaces : Nat)
  | reservedCharacter (c : Char)
deriving DecidableEq, Repr

def Problem.message : Problem → String
  | noIndent => "indent_size must be at least 1"
  | indentTooLarge size =>
    "indent_size " ++ toString size ++ " exceeds maximum of " ++ toString maxIndentSize
  | noAttributesPerLine => "max_attributes_per_line must be at least 1"
  | commentTooWide spaces =>
    "comment_spaces " ++ toString spaces ++ " exceeds maximum of " ++ toString maxCommentSpaces
  | reservedCharacter c => "'" ++ c.toString ++ "' cannot be written unescaped"

/-- An ampersand and a double quote cannot stand in a value between double quotes. -/
def isReserved (c : Char) : Bool := c == '&' || c == '"'

def problem? (s : Settings) : Option Problem :=
  if s.indentSize = 0 then some .noIndent
  else if maxIndentSize < s.indentSize then some (.indentTooLarge s.indentSize)
  else if s.maxAttributesPerLine = 0 then some .noAttributesPerLine
  else if maxCommentSpaces < s.commentSpaces then some (.commentTooWide s.commentSpaces)
  else (s.unescapedCharacters.find? isReserved).map .reservedCharacter

def newLine (s : Settings) : Chars := s.newLineStyle.chars

end Settings

/-- The variants of the language, which differ in the characters that attribute values may hold. -/
inductive Dialect where
  | xaml
  /-- The dialect of `.axaml` files, where values keep `>`. -/
  | avalonia
deriving DecidableEq, Repr

namespace Dialect

def name : Dialect → String
  | xaml => "xaml"
  | avalonia => "axaml"

/-- The characters that the dialect writes as they are in attribute values. -/
def unescaped (d : Dialect) (s : Settings) : Chars :=
  let allowed := s.unescapedCharacters.filter fun c => !Settings.isReserved c
  match d with
  | xaml => allowed
  | avalonia => if allowed.contains '>' then allowed else allowed ++ ['>']

end Dialect
end XamlFormat
