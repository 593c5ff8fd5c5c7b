import RangeQuery.Compile
import RangeQuery.Draft
import RangeQuery.Metadata.Document
import RangeQuery.Settings.Environment
import RangeQuery.Proofs.Anchors
import RangeQuery.Proofs.ChangeReports
import RangeQuery.Proofs.FreedAggregates
import RangeQuery.Proofs.KeptClauses
import RangeQuery.Proofs.NestedAnchors
import RangeQuery.Proofs.RequiredRanges
import RangeQuery.Proofs.Revalidation
import RangeQuery.Proofs.WellLinked
import RangeQuery.Proofs.DroppedRanges
import RangeQuery.Proofs.SplitPredicates
import RangeQuery.Proofs.NullRejection
import RangeQuery.Proofs.ResolvableRelations
import RangeQuery.Proofs.ClosedSubqueries
import RangeQuery.Proofs.PromisedPartners
import RangeQuery.Proofs.MergedRows
import RangeQuery.Proofs.AnchorSelection
import RangeQuery.Proofs.DroppedRows
import RangeQuery.Proofs.MergedJoins
import RangeQuery.Proofs.SettledDemands
import RangeQuery.Proofs.PreservedAggregates
import RangeQuery.Proofs.WrittenTemplates
import RangeQuery.Proofs.ResolvedAnys
import RangeQuery.Proofs.ExtractedMarkers
import RangeQuery.Proofs.PromotedConditions
import RangeQuery.Proofs.CollapsibleRanges
import RangeQuery.Proofs.FreedTerms
import RangeQuery.Proofs.UnambiguousTexts
import RangeQuery.Proofs.RecursiveWalks
import RangeQuery.Proofs.IndependentCopies
import RangeQuery.Proofs.CopiedTemplates
import RangeQuery.Proofs.DrawnRanges
import RangeQuery.Proofs.UncapturedNames
