import ValueMix.Main
import ValueMix.Proofs.Magnitudes
import ValueMix.Proofs.Thresholds
import ValueMix.Proofs.Layout
import ValueMix.Proofs.Building
import ValueMix.Proofs.Creation
import ValueMix.Proofs.Lookup
import ValueMix.Proofs.Numerals
import ValueMix.Proofs.BuiltIn
import ValueMix.Proofs.Grammar
import ValueMix.Proofs.Apportionment
import ValueMix.Proofs.Printing
import ValueMix.Proofs.RoundTrip
import ValueMix.Proofs.SpecPattern
import ValueMix.Proofs.Refusals
import ValueMix.Proofs.Precheck
import ValueMix.Proofs.Rounding
import ValueMix.Proofs.DrawCounts
import ValueMix.Proofs.Drawing
import ValueMix.Proofs.Equality
import ValueMix.Proofs.EntryOrder
import ValueMix.Proofs.Rereading
import ValueMix.Proofs.Sessions
import ValueMix.Proofs.Normalization
import ValueMix.Proofs.Subdivision
import ValueMix.Proofs.Catalogs
import ValueMix.Proofs.Console
import ValueMix.Proofs.CommandRuns
import ValueMix.Proofs.SampledNames
import ValueMix.Proofs.Loading
import ValueMix.Proofs.ShownPercentages
import ValueMix.Proofs.OptimalRounding
import ValueMix.Proofs.ThresholdSearch
import ValueMix.Proofs.FaultOrder
import ValueMix.Proofs.ConfiguredNames
import ValueMix.Proofs.DecimalForms
import ValueMix.Proofs.RatioTexts
import ValueMix.Proofs.TableColumns
import ValueMix.Proofs.SizeTokens
import ValueMix.Proofs.ByteOffsets
import ValueMix.Proofs.GuardedBuilding
import ValueMix.Proofs.GuardedReading
import ValueMix.Proofs.JsonTokens
import ValueMix.Proofs.JsonSpelling
import ValueMix.Proofs.NumberLiterals
import ValueMix.Proofs.JsonWriting
import ValueMix.Proofs.ReportJson
import ValueMix.Proofs.ProbabilityMap
import ValueMix.Proofs.NearestTenth
import ValueMix.Proofs.ThousandsGroups
