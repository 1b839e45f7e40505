import XamlFormat.Command.Invocation
import XamlFormat.Number.Integer

/-! The options of the command line. -/
namespace XamlFormat

/-- Why a command line is not carried out. Asking for help or for the version is one of the
reasons. -/
inductive UsageFault where
  | unknownOption (name : String)
  | missingValue (option : String)
  | emptyPath
  | invalidFlag (value option : String)
  | malformedValue (value option : String)
  /-- An option that is given twice, or two that exclude each other. -/
  | conflict (first second : String)
  | unneededValue (value option : String)
  | help
  | version
deriving DecidableEq, Repr

inductive OptionEffect where
  /-- Takes no value. -/
  | switch (apply : Invocation → Invocation)
  /-- Takes `true` or `false` behind an equals sign; alone it stands for `true`. -/
  | toggle (change : Bool → Change)
  /-- Takes one value. -/
  | value (read : String → Except UsageFault (Invocation → Invocation))
  /-- Takes one value, and may be given again. -/
  | repeated (add : String → Invocation → Invocation)
  | help
  | version

structure CommandOption where
  name : String
  letter : Option Char
  about : String
  effect : OptionEffect

namespace CommandOption

def written (o : CommandOption) : String := "--" ++ o.name

def changing (change : Change) (i : Invocation) : Invocation :=
  { i with changes := i.changes ++ [change] }

def switch (name : String) (letter : Option Char) (about : String)
    (apply : Invocation → Invocation) : CommandOption :=
  ⟨name, letter, about, .switch apply⟩

def toggle (name about : String) (change : Bool → Change) : CommandOption :=
  ⟨name, none, about, .toggle change⟩

def reading {α : Type} (name : String) (letter : Option Char) (about : String)
    (read? : String → Option α) (apply : α → Invocation → Invocation) : CommandOption :=
  ⟨name, letter, about, .value fun word =>
    match read? word with
    | some a => .ok (apply a)
    | none => .error (.malformedValue word ("--" ++ name))⟩

def number (name about : String) (change : Nat → Change) : CommandOption :=
  reading name none about (fun word => Number.word64? word.toList) fun n => changing (change n)

def names (name about : String) (change : List Chars → Change) : CommandOption :=
  reading name none about (fun word => some (Text.nameList word.toList)) fun l =>
    changing (change l)

def choice {α : Type} (name about : String) (choices : List (Choice α)) (change : α → Change) :
    CommandOption :=
  reading name none about (Choice.ofWord? choices) fun a => changing (change a)

def repeated (name : String) (letter : Option Char) (about : String)
    (add : String → Invocation → Invocation) : CommandOption :=
  ⟨name, letter, about, .repeated add⟩

/-- The options that say what to work on and how to report. -/
def general : List CommandOption :=
  [ switch "recursive" (some 'r') "Recursively format directories"
      fun i => { i with recursive := true },
    repeated "exclude" (some 'e')
      "Exclude files/directories matching pattern (glob syntax, can be repeated)"
      fun word i => { i with exclude := i.exclude ++ [word] },
    repeated "extension" (some 'x')
      "Additional file extension to format (can be repeated, e.g., -x xml)"
      fun word i => { i with extensions := i.extensions ++ [word] },
    switch "ignore" none "Format files given on the command line regardless of extension"
      fun i => { i with ignoreExtension := true },
    ⟨"config", some 'c', "Path to configuration file (overrides auto-discovery)",
      .value fun word =>
        if word.isEmpty then .error .emptyPath
        else .ok fun i => { i with settingsFile := some (Path.ofString word) }⟩,
    switch "passive" (some 'p') "Check formatting only; report files that would change"
      fun i => { i with passive := true },
    switch "write-to-stdout" (some 's')
      "Write the formatted document to stdout instead of in-place"
      fun i => { i with writeToOutput := true },
    reading "jobs" (some 'j') "Number of parallel jobs (0=auto, 1=sequential)"
      (fun word => Number.word64? word.toList) fun n i => { i with jobs := some n },
    switch "debug" (some 'D') "Enable debug output (shows config and rule decisions)"
      fun i => { i with debug := true },
    switch "silent" (some 'S') "Silent mode (only warnings and errors)"
      fun i => { i with silent := true } ]

/-- The options that change settings. -/
def styling : List CommandOption :=
  [ number "indent-size" "Columns per indent level [default: 4]" .indentSize,
    toggle "indent-with-tabs" "Indent with tabs" .indentWithTabs,
    number "attribute-indentation"
      "Continuation indent in columns, 0 to align with the first attribute [default: 0]"
      .attributeIndentation,
    choice "attribute-indentation-style"
      "Continuation indentation with tabs: mixed or spaces [default: spaces]"
      ContinuationStyle.choices .continuationStyle,
    number "attributes-tolerance"
      "Attributes allowed beyond the per-line maximum before wrapping [default: 2]"
      .attributesTolerance,
    number "max-attributes-per-line" "Maximum attributes per line when wrapping [default: 1]"
      .maxAttributesPerLine,
    number "max-attribute-characters-per-line"
      "Maximum attribute characters per line, 0 for no limit [default: 0]"
      .maxAttributeCharactersPerLine,
    toggle "keep-first-attribute-on-same-line"
      "Keep the first attribute on the tag line when wrapping" .keepFirstAttributeOnSameLine,
    names "no-new-line-elements" "Comma-separated elements whose attributes never wrap"
      .noNewLineElements,
    toggle "put-attribute-order-rule-groups-on-separate-lines"
      "Start each attribute rule group on a new line when wrapping" .groupsOnSeparateLines,
    toggle "put-ending-bracket-on-new-line"
      "Put the closing bracket on its own line when wrapping" .endingBracketOnNewLine,
    toggle "remove-ending-tag-of-empty-element" "Write empty elements in self-closing form"
      .removeEndTagOfEmptyElement,
    toggle "space-before-closing-slash" "Write a space before '/>'" .spaceBeforeClosingSlash,
    choice "root-element-line-break-rule"
      "Root element attribute wrapping: default, always or never" RootWrap.choices .rootWrap,
    toggle "enable-attribute-reordering" "Order attributes by rule groups"
      .enableAttributeReordering,
    repeated "attribute-ordering-rule-groups" none
      "Attribute rule group as comma-separated patterns (repeat for each group)"
      fun word i => { i with changes := Invocation.addGroup word.toList i.changes },
    names "first-line-attributes" "Comma-separated attributes pinned to the tag line"
      .firstLineAttributes,
    toggle "order-attributes-by-name" "Sort attributes matched by the same pattern by name"
      .orderAttributesByName,
    toggle "remove-design-time-references"
      "Remove design-time attributes and namespace declarations" .removeDesignTimeReferences,
    toggle "ignore-design-time-reference-prefix"
      "Order design-time attributes as if unprefixed" .ignoreDesignTimeQualifier,
    choice "reorder-vsm" "Place VisualStateManager.VisualStateGroups: none, first or last"
      StateGroupPlace.choices .stateGroupPlace,
    toggle "reorder-grid-children" "Sort Grid children by row and column" .reorderGridChildren,
    toggle "reorder-canvas-children" "Sort Canvas children by position" .reorderCanvasChildren,
    choice "reorder-setters"
      "Sort setters: none, property, target_name or target_name_then_property"
      SetterOrder.choices .setterOrder,
    toggle "format-markup-extension" "Normalize and split markup extensions" .formatExtensions,
    names "no-new-line-markup-extensions"
      "Comma-separated markup extensions that are never split" .noNewLineExtensions,
    choice "thickness-style" "Thickness separator: none, comma or space" ThicknessStyle.choices
      .thicknessStyle,
    names "thickness-attributes" "Comma-separated attributes holding thickness values"
      .thicknessAttributes,
    reading "unescaped-attribute-characters" none
      "Characters written unescaped in attribute values (e.g. '<>')"
      (fun word => some (word.toList.filter fun c => !Text.isBlank c))
      fun chars => changing (.unescapedCharacters chars),
    number "comment-spaces" "Padding inside single-line comments [default: 2]" .commentSpaces,
    toggle "suppress-processing" "Leave documents unchanged" .suppressProcessing,
    choice "new-line-style" "Line endings: system, unix or windows" NewLineStyle.choices
      .newLineStyle ]

def all : List CommandOption :=
  general ++ styling ++
    [ ⟨"help", some 'h', "Print help", .help⟩, ⟨"version", some 'V', "Print version", .version⟩ ]

def ofName? (name : String) : Option CommandOption := all.find? fun o => o.name == name

def ofLetter? (letter : Char) : Option CommandOption :=
  all.find? fun o => o.letter == some letter

end CommandOption
end XamlFormat
