import UniqueSelector.Text.Units
import UniqueSelector.Text.Quoted
import UniqueSelector.Warning
import UniqueSelector.Document.Outline
import UniqueSelector.Markup.Construction
import UniqueSelector.Selector.Query
import UniqueSelector.Selector.Escape
import UniqueSelector.Main
import UniqueSelector.Proofs.Fragments
import UniqueSelector.Proofs.Rendering
import UniqueSelector.Proofs.Ascent
import UniqueSelector.Proofs.Fits
import UniqueSelector.Proofs.Mute
import UniqueSelector.Proofs.OwnPaths
import UniqueSelector.Proofs.Runs
import UniqueSelector.Proofs.Steady
import UniqueSelector.Proofs.Soundness
import UniqueSelector.Proofs.Tokens
import UniqueSelector.Proofs.Constructed
import UniqueSelector.Proofs.InternalFailure
import UniqueSelector.Proofs.FirstFailure
import UniqueSelector.Proofs.Choices
import UniqueSelector.Proofs.Stages
import UniqueSelector.Proofs.Settled
import UniqueSelector.Proofs.Places
import UniqueSelector.Proofs.Widening
import UniqueSelector.Proofs.Exhaustion
import UniqueSelector.Proofs.PlainClimb
import UniqueSelector.Proofs.TagNames
import UniqueSelector.Proofs.Streams
import UniqueSelector.Proofs.ScannerRuns
import UniqueSelector.Proofs.Gathered
import UniqueSelector.Proofs.Landmarks
import UniqueSelector.Proofs.Meaning
import UniqueSelector.Proofs.TreeOrder
import UniqueSelector.Proofs.Answers
import UniqueSelector.Proofs.Nesting
import UniqueSelector.Proofs.Structure
import UniqueSelector.Proofs.Formulas
import UniqueSelector.Proofs.Printing
import UniqueSelector.Proofs.PrintedBack
import UniqueSelector.Proofs.Pinning
import UniqueSelector.Proofs.Completeness
import UniqueSelector.Proofs.Doubles
import UniqueSelector.Proofs.Thresholds
import UniqueSelector.Proofs.Costs
import UniqueSelector.Proofs.Prices
import UniqueSelector.Proofs.Variants
import UniqueSelector.Proofs.Shortenings
import UniqueSelector.Proofs.Cheapest
import UniqueSelector.Proofs.Tries
import UniqueSelector.Proofs.Budget
import UniqueSelector.Proofs.Discretion
import UniqueSelector.Proofs.Edits
import UniqueSelector.Proofs.Traversals
import UniqueSelector.Proofs.Targets
import UniqueSelector.Proofs.Rebuilding
import UniqueSelector.Proofs.SpelledBack
import UniqueSelector.Proofs.Explored
import UniqueSelector.Proofs.Ranked
import UniqueSelector.Proofs.Origins
import UniqueSelector.Proofs.OwnFeatures
import UniqueSelector.Proofs.Turns
import UniqueSelector.Proofs.Breadths
import UniqueSelector.Proofs.OwnIds
import UniqueSelector.Proofs.Verdicts
import UniqueSelector.Proofs.Siblings
import UniqueSelector.Proofs.Commas
import UniqueSelector.Proofs.Spacing
import UniqueSelector.Proofs.Progressions
import UniqueSelector.Proofs.Sparing
import UniqueSelector.Proofs.Heard
import UniqueSelector.Proofs.Dictionary
import UniqueSelector.Proofs.Restored
