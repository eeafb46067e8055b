import PropCalc.Log.Registry
import PropCalc.Main
import PropCalc.Proofs.CanonicalForm
import PropCalc.Proofs.ConsoleRuns
import PropCalc.Proofs.CoverSize
import PropCalc.Proofs.Decoding
import PropCalc.Proofs.Dependence
import PropCalc.Proofs.FirstMisfit
import PropCalc.Proofs.LabeledColumns
import PropCalc.Proofs.LabeledParts
import PropCalc.Proofs.LabeledValues
import PropCalc.Proofs.LeftFold
import PropCalc.Proofs.LogLevels
import PropCalc.Proofs.Minimization
import PropCalc.Proofs.PrimeOrder
import PropCalc.Proofs.PrintedMinimum
import PropCalc.Proofs.Reuse
import PropCalc.Proofs.RoundTerms
import PropCalc.Proofs.RowNumbering
import PropCalc.Proofs.Sessions
import PropCalc.Proofs.TruthTables
import PropCalc.Proofs.Writings
import PropCalc.Session
import PropCalc.Text.Lines
