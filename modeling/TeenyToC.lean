import TeenyToC.Files.Tree
import TeenyToC.Main
import TeenyToC.Proofs.Acceptance
import TeenyToC.Proofs.CExpressions
import TeenyToC.Proofs.DeclaredNames
import TeenyToC.Proofs.EmptyLines
import TeenyToC.Proofs.LexicalFaults
import TeenyToC.Proofs.LineBoundaries
import TeenyToC.Proofs.LogRecords
import TeenyToC.Proofs.Lookahead
import TeenyToC.Proofs.Numerals
import TeenyToC.Proofs.OutputModes
import TeenyToC.Proofs.PrintedText
import TeenyToC.Proofs.RenamedRuns
import TeenyToC.Proofs.UnresolvedJumps
import TeenyToC.Proofs.ViablePrefix
import TeenyToC.Proofs.AfterFaults
import TeenyToC.Proofs.EndOfText
import TeenyToC.Proofs.WordForms
import TeenyToC.Proofs.CallBounds
import TeenyToC.Proofs.LineEndings
import TeenyToC.Proofs.RepeatedRuns
import TeenyToC.Proofs.Messages
import TeenyToC.Proofs.Verbosity
