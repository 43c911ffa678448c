import Mathlib.Algebra.GroupWithZero.Nat
import Mathlib.Algebra.Order.Ring.Rat
import Mathlib.Data.List.Basic
import Mathlib.Logic.Function.Basic

/-!
# Worst-case propagation over a graph

A breadth-first search from a seed collects the nodes that are reachable and, for each of them, the
children that were not visited yet when it was expanded (`bfs`). Kahn's algorithm then processes the
nodes in topological order and hands the largest accumulated value to the children (`kahn`).

A child that was already visited is not recorded, so the value of a node is the worst case over the
recorded edges only.
-/

namespace Bao.Graph.Propagation

variable {ν σ : Type} [DecidableEq ν]

/-- The expanded nodes with their recorded children, in the order of expansion. -/
abbrev Dag (ν : Type) := List (ν × List ν)

/-- The recorded children of a node. -/
def Dag.children (dag : Dag ν) (n : ν) : List ν := (dag.lookup n).getD []

/-- The breadth-first search: a node is expanded once, and a child that is already visited is
dropped. -/
def bfs (next : ν → List ν) : ℕ → List ν → Dag ν → Dag ν
  | 0, _, dag => dag
  | _ + 1, [], dag => dag
  | fuel + 1, n :: toVisit, dag =>
    if n ∈ dag.map Prod.fst then bfs next fuel toVisit dag
    else
      let fresh := (next n).filter fun m => m ∉ n :: dag.map Prod.fst
      bfs next fuel (toVisit ++ fresh) (dag ++ [(n, fresh)])

/-- The number of recorded edges into a node. -/
def inDegree (dag : Dag ν) (n : ν) : ℕ := (dag.map fun e => e.2.count n).sum

/-- The state of Kahn's algorithm: the queue, the open in-degrees, the largest value handed to each
node, what the charges depend on, and the values of the processed nodes. -/
structure Kahn (ν σ : Type) where
  queue : List ν
  inDeg : ν → ℕ
  handed : ν → Option ℚ
  seen : σ
  done : List (ν × ℚ)

/-- Processes one node: its value is the largest one handed to it plus its charge. -/
def Kahn.step (dag : Dag ν) (charge : σ → ν → ℚ × σ) (n : ν) (k : Kahn ν σ) : Kahn ν σ :=
  let (cost, seen) := charge k.seen n
  let value := (k.handed n).getD 0 + cost
  let children := dag.children n
  let inDeg := children.foldl (fun d c => Function.update d c (d c - 1)) k.inDeg
  { queue := k.queue ++ children.filter fun c => inDeg c = 0
    inDeg := inDeg
    handed := children.foldl (fun h c => Function.update h c
      (some (match h c with
        | some v => max v value
        | none => value))) k.handed
    seen := seen
    done := k.done ++ [(n, value)] }

/-- Kahn's algorithm. -/
def kahn (dag : Dag ν) (charge : σ → ν → ℚ × σ) : ℕ → Kahn ν σ → Kahn ν σ
  | 0, k => k
  | fuel + 1, k =>
    match k.queue with
    | [] => k
    | n :: queue => kahn dag charge fuel (Kahn.step dag charge n { k with queue := queue })

/-- **The values of the nodes reachable from a seed**, in the order in which they are processed. The
seed starts with `init`. -/
def propagate (next : ν → List ν) (charge : σ → ν → ℚ × σ) (fuel : ℕ) (seed : ν) (init : ℚ)
    (seen : σ) : List (ν × ℚ) :=
  let dag := bfs next fuel [seed] []
  (kahn dag charge dag.length
    { queue := (dag.map Prod.fst).filter fun n => inDegree dag n = 0
      inDeg := inDegree dag
      handed := Function.update (fun _ => none) seed (some init)
      seen := seen
      done := [] }).done

end Bao.Graph.Propagation
