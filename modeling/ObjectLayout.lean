import ObjectLayout.TypeId
import ObjectLayout.Memo
import ObjectLayout.FirstSeen
import ObjectLayout.Alignment
import ObjectLayout.Field
import ObjectLayout.Composite
import ObjectLayout.TypeTable
import ObjectLayout.Target
import ObjectLayout.BitPacking
import ObjectLayout.Layout
import ObjectLayout.Rejection
import ObjectLayout.Demand
import ObjectLayout.Acceptance
import ObjectLayout.Frontier
import ObjectLayout.FieldGroup
import ObjectLayout.Draft
import ObjectLayout.Placement
import ObjectLayout.Traits.Violation
import ObjectLayout.Traits.Ancestry
import ObjectLayout.Traits.Assessment
import ObjectLayout.Traits.Verdicts
import ObjectLayout.Planner
import ObjectLayout.CachedLayouts
import ObjectLayout.Text
import ObjectLayout.Options
import ObjectLayout.Catalogue.Basic
import ObjectLayout.Catalogue.Builtin
import ObjectLayout.JsonText
import ObjectLayout.Report.Basic
import ObjectLayout.Report.MemberTable
import ObjectLayout.Report.ByteMap
import ObjectLayout.Report.Render
import ObjectLayout.CommandLine
import ObjectLayout.Main
import ObjectLayout.Proofs.References
import ObjectLayout.Proofs.LocalRules
import ObjectLayout.Proofs.Acceptability
import ObjectLayout.Proofs.AcceptanceWalk
import ObjectLayout.Proofs.AncestryWalk
import ObjectLayout.Proofs.VerdictWalk
import ObjectLayout.Proofs.Moves
import ObjectLayout.Proofs.Construction
import ObjectLayout.Proofs.PlacementWalk
import ObjectLayout.Proofs.Expansion
import ObjectLayout.Proofs.FieldOccupancy
import ObjectLayout.Proofs.Occupancy
import ObjectLayout.Proofs.Rounding
import ObjectLayout.Proofs.AlignmentAgreement
import ObjectLayout.Proofs.Inheritance
import ObjectLayout.Proofs.TraitHistory
import ObjectLayout.Proofs.ReachableTraits
import ObjectLayout.Proofs.PlacementErrors
import ObjectLayout.Proofs.VerdictAgreement
import ObjectLayout.Proofs.StandardLayout
import ObjectLayout.Proofs.RegularPlacement
import ObjectLayout.Proofs.ExactPlacement
import ObjectLayout.Proofs.AddressBounds
import ObjectLayout.Proofs.ReportedSpans
import ObjectLayout.Proofs.SpansApart
import ObjectLayout.Proofs.Anchors
import ObjectLayout.Proofs.CautiousPlacement
import ObjectLayout.Proofs.PlacementSafety
import ObjectLayout.Proofs.PlacementOnDemand
import ObjectLayout.Proofs.InheritedSlots
import ObjectLayout.Proofs.BaseWalk
import ObjectLayout.Proofs.LeastPacking
import ObjectLayout.Proofs.MarkedRuns
import ObjectLayout.Proofs.ComparedPlacement
import ObjectLayout.Proofs.TailReuse
import ObjectLayout.Proofs.RenamedAcceptance
import ObjectLayout.Proofs.RenamedTraits
import ObjectLayout.Proofs.RenamedPlacement
import ObjectLayout.Proofs.GrowingTables
import ObjectLayout.Proofs.RenamedTables
import ObjectLayout.Proofs.Renaming
import ObjectLayout.Proofs.Variants
import ObjectLayout.Proofs.PackingClamps
import ObjectLayout.Proofs.LooseClamps
import ObjectLayout.Proofs.ForcedAlignment
import ObjectLayout.Proofs.AppendedFields
import ObjectLayout.Proofs.Composition
import ObjectLayout.Proofs.DeclaredFields
import ObjectLayout.Proofs.DataEnd
import ObjectLayout.Proofs.TraitView
import ObjectLayout.Proofs.HollowTypes
import ObjectLayout.Proofs.EmptyBases
import ObjectLayout.Proofs.BaseEnds
import ObjectLayout.Proofs.PointerSizes
import ObjectLayout.Proofs.AncestryHistory
import ObjectLayout.Proofs.OwnedWalk
import ObjectLayout.Proofs.BytePictures
import ObjectLayout.Proofs.PrintedLines
import ObjectLayout.Proofs.ReportRows
import ObjectLayout.Proofs.SlotRows
import ObjectLayout.Proofs.FlagOrder
import ObjectLayout.Proofs.WalkMarks
import ObjectLayout.Proofs.BareTypes
import ObjectLayout.Proofs.Diamonds
import ObjectLayout.Proofs.RememberedPlacements
