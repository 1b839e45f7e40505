import XamlFormat.Markup.Node

/-! Marker comments. The siblings between `<!-- xamlfmt:off -->` and the next `<!-- xamlfmt:on -->`,
or the end of their parent, are written exactly as they stand in the source. -/
namespace XamlFormat

inductive Marker where
  | off
  | on
deriving DecidableEq, Repr

namespace Marker

/-- The word in front of the colon of a marker. -/
def keyword : Chars := "xamlfmt:".toList

/-- The marker that the text of a comment spells, in any case and with blanks around its words. -/
def ofComment? (content : Chars) : Option Marker :=
  match keyword.isPrefixOf? ((Text.trim content).map Char.toLower) with
  | none => none
  | some rest =>
    let word := Text.trimStart rest
    if word = "off".toList then some off
    else if word = "on".toList then some on
    else none

end Marker

namespace Node

def marker? : Node → Option Marker
  | raw .comment content _ => Marker.ofComment? content
  | _ => none

end Node

def hasMarker (nodes : List Node) : Bool := nodes.any fun n => n.marker?.isSome

/-- Position behind the marker that ends the region opened at position `i`; none where the region
goes on to the end. -/
def regionEnd? (nodes : List Node) (i : Nat) : Option Nat :=
  ((nodes.drop (i + 1)).findIdx? fun n => n.marker? == some .on).map (· + i + 2)

/-- Where the source of a region ends whose nodes follow its marker: behind the closing marker, or
at `contentEnd`. -/
def regionStop (contentEnd : Nat) : List Node → Nat
  | [] => contentEnd
  | n :: ns => if n.marker? = some .on then n.span.stop else regionStop contentEnd ns

end XamlFormat
