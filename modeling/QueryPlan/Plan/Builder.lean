import QueryPlan.Plan.Basic

/-!
Plans built from the bottom up. A builder starts with a scan and puts one
operator after the other on top, numbering its own nodes from one. The right
input of a product or join is a finished plan and keeps its numbers.
-/

namespace QueryPlan

structure Builder where
  root : Plan
  lastId : NodeId

namespace Builder

def scan (r : BaseRelation) : Builder :=
  ⟨⟨.scan r, [], 1, none⟩, 1⟩

/-- A new root above the present one and, to its right, further inputs. -/
def grow (b : Builder) (op : Operator) (others : List Plan) : Builder :=
  let id := b.lastId + 1
  ⟨⟨op, b.root :: others, id, none⟩, id⟩

def select (b : Builder) (p : Predicate) : Builder :=
  b.grow (.select p) []

def project (b : Builder) (cs : List Column) : Builder :=
  b.grow (.project cs) []

def product (b : Builder) (right : Plan) : Builder :=
  b.grow .product [right]

def join (b : Builder) (p : Predicate) (right : Plan) : Builder :=
  b.grow (.join p) [right]

end Builder
end QueryPlan
