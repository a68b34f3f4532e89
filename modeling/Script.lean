import Script.Command
import Script.Main
import Script.Proofs.ScopesLemmas
import Script.Proofs.ScopesSound
import Script.Proofs.ClosuresSound
import Script.Proofs.RecyclingSound
import Script.Proofs.Grammar
import Script.Proofs.ParseLemmas
import Script.Proofs.ParseSound
import Script.Proofs.ParseComplete
import Script.Proofs.ProgramsComplete
import Script.Proofs.ScanLines
import Script.Proofs.Conversations
import Script.Proofs.ProgramInPieces
import Script.Proofs.ExaminedSound
import Script.Proofs.ParseMoves
import Script.Proofs.ParseRelocation
import Script.Proofs.LinesAsPrograms
import Script.Proofs.ScanOrder
import Script.Proofs.Layout
import Script.Proofs.DecimalIntervals
import Script.Proofs.NumbersWritten
import Script.Proofs.BracketedTexts
import Script.Proofs.OutlinedExpressions
import Script.Proofs.OutlinedPrograms
import Script.Proofs.LiteralsValued
import Script.Proofs.ProperTrees
import Script.Proofs.ImpossibleBranches
import Script.Proofs.NoScopeLeaks
import Script.Proofs.CallsBalanced
import Script.Proofs.ObjectionsInOrder
import Script.Proofs.DiagnosticsMerged
import Script.Proofs.SinkSteps
import Script.Proofs.DebugTransparent
import Script.Proofs.FullSinks
import Script.Proofs.GoodPrefixes
import Script.Proofs.LoopControl
import Script.Proofs.ParserProgress
import Script.Proofs.VeiledScopes
import Script.Proofs.CallsApart
import Script.Proofs.LongestWords
import Script.Proofs.Respelled
import Script.Proofs.ForLoops
import Script.Proofs.BoundValues
import Script.Proofs.HandedOn
import Script.Proofs.SlotsConsistent
import Script.Proofs.CallablesByOrigin
import Script.Proofs.WholeNumbers
import Script.Proofs.BitsOfNumbers
import Script.Proofs.LinesOfInput
import Script.Proofs.LookaheadReads
import Script.Proofs.LookaheadInStep
