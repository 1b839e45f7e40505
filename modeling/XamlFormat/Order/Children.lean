import XamlFormat.Markup.Defect
import XamlFormat.Markup.Marker
import XamlFormat.Number.Binary64
import XamlFormat.Order.Siblings
import XamlFormat.Settings.Basic

/-! The order of children in the containers where it carries no meaning: visual state groups go to
one end, children of grids and canvases are sorted by position, and setters by what they set. -/
namespace XamlFormat

def stateGroupsName : Chars := "VisualStateManager.VisualStateGroups".toList

def gridKeys : List Chars := ["Grid.Row", "Grid.Column"].map String.toList

def canvasKeys : List Chars :=
  ["Canvas.Left", "Canvas.Top", "Canvas.Right", "Canvas.Bottom"].map String.toList

/-- Whether the children of an element may move: it does not preserve its space, has no running text
and no marker. -/
def mayReorder (tag : Tag) (children : List Node) : Bool :=
  !tag.preserveSpace && !children.any Node.isSignificant && !hasMarker children

/-- Moves the visual state groups in front of or behind all other clusters. -/
def moveStateGroups (place : StateGroupPlace) (children : List Node) : List Node :=
  let (clusters, tail) := Cluster.split children
  let isGroup (c : Cluster) : Bool := c.tag.name.base == stateGroupsName
  let groups := clusters.filter isGroup
  let others := clusters.filter fun c => !isGroup c
  match place with
  | .keep => children
  | .first => Cluster.join (groups ++ others) tail
  | .last => Cluster.join (others ++ groups) tail

/-- The value of one position attribute of a child in `container`; zero where it is missing. -/
def positionOf (container : String) (read : Chars → Option Int) (tag : Tag) (name : Chars) :
    Except Fault Int :=
  match tag.value? name with
  | none => .ok 0
  | some value =>
    match read (Text.trim value) with
    | some n => .ok n
    | none =>
      .error (.ambiguousOrder container
        (String.ofList name ++ "=\"" ++ String.ofList value ++ "\" is not a number"))

def gridKey (tag : Tag) : Except Fault (List Int) :=
  gridKeys.mapM (positionOf "Grid" Number.int64? tag)

def canvasKey (tag : Tag) : Except Fault (List Int) :=
  canvasKeys.mapM (positionOf "Canvas" Number.binary64? tag)

def setterKey (order : SetterOrder) (tag : Tag) : List Chars :=
  let value (name : String) : Chars := (tag.value? name.toList).getD []
  match order with
  | .keep => []
  | .property => [value "Property"]
  | .targetName => [value "TargetName"]
  | .targetNameThenProperty => [value "TargetName", value "Property"]

/-- Children that are elements of their own and not properties of the container. -/
def isPositioned (tag : Tag) : Bool := !tag.name.isProperty

/-- Sorts the children of a grid or a canvas by position, if the settings ask for it. Children whose
position cannot be read stay where they are, and the first such position is reported. -/
def sortByPosition (s : Settings) (tag : Tag) (children : List Node) : List Node × Option Fault :=
  if tag.name = ⟨none, "Grid".toList⟩ ∧ s.reorderGridChildren then
    sortSiblings (fun t _ => isPositioned t) (fun t _ => gridKey t) compare children
  else if tag.name = ⟨none, "Canvas".toList⟩ ∧ s.reorderCanvasChildren then
    sortSiblings (fun t _ => isPositioned t) (fun t _ => canvasKey t) compare children
  else (children, none)

def isSetter (tag : Tag) : Bool := tag.name.base == "Setter".toList

def sortSetters (order : SetterOrder) (children : List Node) : List Node :=
  let key (tag : Tag) (_ : List Node) : Except Empty (List Chars) := .ok (setterKey order tag)
  match order with
  | .keep => children
  | _ => (sortSiblings (fun t _ => isSetter t) key compare children).1

def arrange (s : Settings) (tag : Tag) (children : List Node) : List Node :=
  if mayReorder tag children then
    let moved := moveStateGroups s.stateGroupPlace children
    sortSetters s.setterOrder (sortByPosition s tag moved).1
  else children

def arrangeFault? (s : Settings) (tag : Tag) (children : List Node) : Option Fault :=
  if mayReorder tag children then
    (sortByPosition s tag (moveStateGroups s.stateGroupPlace children)).2
  else none

mutual

def Node.arrangeAll (s : Settings) : Node → Node
  | .element tag children => .element tag (arrange s tag (arrangeAllList s children))
  | .text v sp => .text v sp
  | .raw k c sp => .raw k c sp

def arrangeAllList (s : Settings) : List Node → List Node
  | [] => []
  | n :: ns => n.arrangeAll s :: arrangeAllList s ns

end

mutual

/-- The faults of an element and of everything inside it, in the order of the arranged document. -/
def Node.arrangeFaults (s : Settings) : Node → List Fault
  | .element tag children =>
    let inner := arrangeFaultsList s children
    (arrangeFault? s tag children).toList ++
      (arrange s tag children).flatMap fun n => (inner.lookup n.span.start).getD []
  | .text _ _ => []
  | .raw _ _ _ => []

/-- The faults of each node, by where it starts. -/
def arrangeFaultsList (s : Settings) : List Node → List (Nat × List Fault)
  | [] => []
  | n :: ns => (n.span.start, n.arrangeFaults s) :: arrangeFaultsList s ns

end

namespace Document

def arrange (s : Settings) (d : Document) : Document :=
  { d with nodes := arrangeAllList s d.nodes }

def arrangeFaults (s : Settings) (d : Document) : List Fault :=
  (arrangeFaultsList s d.nodes).flatMap Prod.snd

end Document
end XamlFormat
