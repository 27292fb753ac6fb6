import QueryPlan.Plan.Traversal
import QueryPlan.Text.Grid

/-!
The estimates of a plan as a table, one row to a node in preorder. A node that
has not been estimated shows a dash.
-/

namespace QueryPlan.Plan

def tableRow (p : Plan) : List String :=
  [Nat.repr p.id.toNat, p.operator.text] ++ match p.estimate with
    | some s => [Count.text s.tuples, ", ".intercalate (s.attributes.map Attribute.text)]
    | none => ["-", "-"]

def table (p : Plan) : String :=
  Text.Grid.render ["id", "operator", "tuples", "attributes"] (p.nodes.map tableRow)

end QueryPlan.Plan
