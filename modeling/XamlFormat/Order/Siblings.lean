import XamlFormat.Markup.Node
import XamlFormat.Order.StableSort

/-! Sibling elements move together with what stands directly before them. Sorting some of the
siblings leaves all others in their places. -/
namespace XamlFormat

/-- An element and the nodes directly before it. -/
structure Cluster where
  leading : List Node
  tag : Tag
  children : List Node

namespace Cluster

def nodes (c : Cluster) : List Node := c.leading ++ [.element c.tag c.children]

/-- The clusters of a list of nodes, and the nodes behind the last element. -/
def split : List Node → List Cluster × List Node
  | [] => ([], [])
  | .element tag children :: rest =>
    let more := split rest
    (⟨[], tag, children⟩ :: more.1, more.2)
  | n :: rest =>
    match split rest with
    | ([], tail) => ([], n :: tail)
    | (c :: cs, tail) => ({ c with leading := n :: c.leading } :: cs, tail)

def join (clusters : List Cluster) (tail : List Node) : List Node :=
  clusters.flatMap nodes ++ tail

theorem join_split (nodes : List Node) : join (split nodes).1 (split nodes).2 = nodes := by
  induction nodes with
  | nil => rfl
  | cons n rest ih =>
    cases n with
    | element tag children =>
      simp only [split, join, List.flatMap_cons, Cluster.nodes, List.nil_append,
        List.cons_append, List.cons.injEq, true_and]
      exact ih
    | text value span =>
      simp only [split]
      split <;> simp_all [join, Cluster.nodes]
    | raw kind content span =>
      simp only [split]
      split <;> simp_all [join, Cluster.nodes]

/-- Puts `replacements`, in order, in the places of the clusters that `p` picks out. -/
def refill (p : Cluster → Bool) : List Cluster → List Cluster → List Cluster
  | [], _ => []
  | c :: cs, replacements =>
    if p c then
      match replacements with
      | r :: rs => r :: refill p cs rs
      | [] => c :: refill p cs []
    else c :: refill p cs replacements

end Cluster

/-- Sorts the elements that `candidate` picks out by their keys, among their own places. Where a key
cannot be computed the nodes stay as they are, and the first such failure is reported. -/
def sortSiblings {κ ε : Type} (candidate : Tag → List Node → Bool)
    (key : Tag → List Node → Except ε κ) (order : κ → κ → Ordering) (nodes : List Node) :
    List Node × Option ε :=
  let (clusters, tail) := Cluster.split nodes
  let isCandidate (c : Cluster) : Bool := candidate c.tag c.children
  match (clusters.filter isCandidate).mapM fun c => return (← key c.tag c.children, c) with
  | .error e => (Cluster.join clusters tail, some e)
  | .ok keyed =>
    let sorted := stableSort (fun a b => (order a.1 b.1).isLE) keyed
    (Cluster.join (Cluster.refill isCandidate clusters (sorted.map Prod.snd)) tail, none)

end XamlFormat
