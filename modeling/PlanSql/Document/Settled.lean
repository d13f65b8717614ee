import PlanSql.Graph.Basic

/-!
# Settled plans

A decimal that was rounded to zero may have a sign, which its text shows and reading it drops. A
plan is settled when no constant in it has such a sign; `settled` drops them, and that is all it
changes.
-/

namespace PlanSql

/-- The constant without the sign of a zero. -/
def Value.settled : Value → Value
  | decimal d => decimal d.settled
  | v => v

/-- The buckets with settled bins and labels. -/
def Cut.settled (c : Cut) : Cut :=
  { c with bins := c.bins.map Value.settled, labels := c.labels.map Value.settled }

def Kind.settled : Kind → Kind
  | literal v => literal v.settled
  | element (.cut input c) => element (.cut input c.settled)
  | window (.shift func input offset fallback spec) =>
    window (.shift func input offset (fallback.map Value.settled) spec)
  | kind => kind

def Node.settled (n : Node) : Node := { n with kind := n.kind.settled }

def Graph.settled (g : Graph) : Graph := { g with nodes := g.nodes.map Node.settled }

def Plan.settled (p : Plan) : Plan := { p with graph := p.graph.settled }

end PlanSql
