import XamlFormat.Markup.Node
import XamlFormat.Order.NamePattern
import XamlFormat.Order.StableSort
import XamlFormat.Settings.Basic

/-! The order of attributes: by group, by pattern, by name, and last by where they stood. Attributes
that belong on the line of the element name come before all others. -/
namespace XamlFormat

structure Ranked where
  rank : Rank
  name : Chars
  item : Attribute

namespace Ranked

/-- The order of attributes. Names count only with `byName`, and only among names that a pattern
fits. -/
def order (byName : Bool) (a b : Ranked) : Ordering :=
  (compare a.rank.group b.rank.group).then <|
    (compare a.rank.priority b.rank.priority).then <|
      (if byName && a.rank.matched && b.rank.matched then compare a.name b.name else .eq).then <|
        compare a.item.index b.item.index

def precedes (byName : Bool) (a b : Ranked) : Bool := (order byName a b).isLE

end Ranked

namespace Attribute

/-- The name that patterns see: without its qualifier, where design-time qualifiers are ignored and
it is one. -/
def matchingName (s : Settings) (design : List Chars) (a : Attribute) : Chars :=
  match a.name.qualifier with
  | some q =>
    if s.ignoreDesignTimeQualifier && design.contains q then a.name.base else a.name.written
  | none => a.name.written

def ranked (rules : OrderingRules) (s : Settings) (design : List Chars) (a : Attribute) : Ranked :=
  let name := a.matchingName s design
  let rank := rules.classify name
  ⟨rank, name, { a with group := rank.group }⟩

end Attribute

/-- Takes the attributes with the given names out of a list, in the order of the names. The result
holds them and the rest. -/
def takeNamed : List Chars → List Attribute → List Attribute × List Attribute
  | [], attributes => ([], attributes)
  | name :: names, attributes =>
    match attributes.find? fun a => a.name.written == name with
    | some a =>
      let more := takeNamed names (attributes.eraseP fun a => a.name.written == name)
      (a :: more.1, more.2)
    | none => takeNamed names attributes

namespace Tag

/-- Sorts the attributes into their groups and moves those of the first line to the front. Each
attribute learns its group even where the order stays. -/
def orderAttributes (rules : OrderingRules) (s : Settings) (design : List Chars) (t : Tag) : Tag :=
  let ranked := t.attributes.map (Attribute.ranked rules s design)
  let sorted :=
    if s.enableAttributeReordering then
      stableSort (Ranked.precedes s.orderAttributesByName) ranked
    else ranked
  let split := takeNamed s.firstLineAttributes (sorted.map Ranked.item)
  { t with attributes := split.1 ++ split.2, pinned := split.1.length }

end Tag
end XamlFormat
