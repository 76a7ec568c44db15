import ChartParser.Chart.History
import ChartParser.Chart.Lemmas
import ChartParser.Chart.Links
import ChartParser.Chart.Printer
import ChartParser.Grammar.Derivation
import ChartParser.Grammar.Layout
import ChartParser.Grammar.Printer
import ChartParser.Proofs.Chart.Index
import ChartParser.Proofs.Grammar.Building
import ChartParser.Proofs.Lexicon
import ChartParser.Proofs.Parse.Causality
import ChartParser.Proofs.Parse.Convergence
import ChartParser.Proofs.Parse.Freezing
import ChartParser.Proofs.Parse.Prediction
import ChartParser.Proofs.Parse.Recognition
import ChartParser.Proofs.Parse.Stopping
import ChartParser.Proofs.Parse.SweepCount
import ChartParser.Proofs.Parse.Termination
import ChartParser.Proofs.Tree.Brackets
import ChartParser.Proofs.Tree.Existence
import ChartParser.Proofs.Tree.Markers
import ChartParser.Proofs.Tree.Monotonicity
import ChartParser.Proofs.Tree.Outline
import ChartParser.Proofs.Tree.Product
import ChartParser.Proofs.Tree.Safety
import ChartParser.Tree.Derivation
import ChartParser.Tree.Printer
