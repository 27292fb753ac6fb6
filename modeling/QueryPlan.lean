import QueryPlan.Document.Catalogue
import QueryPlan.Plan.Builder
import QueryPlan.Plan.Table
import QueryPlan.Proofs.Bounds
import QueryPlan.Proofs.FuseJoins.Choice
import QueryPlan.Proofs.FuseJoins.Output
import QueryPlan.Proofs.PushProjects.Again
import QueryPlan.Proofs.PushProjects.Early
import QueryPlan.Proofs.PushProjects.Output
import QueryPlan.Proofs.PushSelects.Builders
import QueryPlan.Proofs.PushSelects.Drained
import QueryPlan.Proofs.PushSelects.Flipped
import QueryPlan.Proofs.PushSelects.Output
import QueryPlan.Proofs.PushSelects.Standings
import QueryPlan.Proofs.Renumbered
import QueryPlan.Proofs.ReorderProducts.Columns
import QueryPlan.Proofs.ReorderProducts.Idempotent
import QueryPlan.Proofs.Traversal
