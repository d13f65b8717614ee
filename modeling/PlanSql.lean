import PlanSql.Command.Disk
import PlanSql.Main
import PlanSql.Proofs.Statements.Branches
import PlanSql.Proofs.Copies.Totality
import PlanSql.Proofs.Lexing.Statements
import PlanSql.Proofs.Copies.Failures
import PlanSql.Proofs.Values.Casts
import PlanSql.Proofs.Joins.Statements
import PlanSql.Proofs.Document.Plans
import PlanSql.Proofs.Compile.Addressable
import PlanSql.Proofs.Walks.Edits
import PlanSql.Proofs.Rows.Buckets
import PlanSql.Proofs.Build.Checks
import PlanSql.Proofs.Build.Results
import PlanSql.Proofs.Statements.Owners
import PlanSql.Proofs.Statements.Forms
import PlanSql.Proofs.Statements.Slots
import PlanSql.Proofs.Compile.Contexts
import PlanSql.Proofs.Text.Folding
