/-!
# Layout

How a statement is spread over lines.
-/

namespace PlanSql.Sql

/-- The spacing of a statement. -/
structure Layout where
  indentSize : Nat
  beautify : Bool
  deriving DecidableEq

/-- The text in front of nested lines. -/
def Layout.pad (layout : Layout) : String := String.ofList (List.replicate layout.indentSize ' ')

/-- Lines are indented by spaces. -/
theorem Layout.eq_of_mem_pad {layout : Layout} : ∀ c ∈ layout.pad.toList, c = ' ' := by
  intro c hc
  rw [Layout.pad, String.toList_ofList] at hc
  exact List.eq_of_mem_replicate hc

end PlanSql.Sql
