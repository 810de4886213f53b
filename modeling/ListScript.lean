import ListScript.Main
import ListScript.Tree.Outline
import ListScript.Proofs.TypeSoundness
import ListScript.Proofs.Recognition
import ListScript.Proofs.RoundTrip
import ListScript.Proofs.Lossless
import ListScript.Proofs.ReachableValues
import ListScript.Proofs.ScopingFailures
import ListScript.Proofs.BrokenSource
import ListScript.Proofs.LineBreaks
import ListScript.Proofs.Agenda
import ListScript.Proofs.ParserTrace
import ListScript.Proofs.ViablePrefix
import ListScript.Proofs.CursorProtocol
import ListScript.Proofs.Incremental
import ListScript.Proofs.FullSink
import ListScript.Proofs.Moments
import ListScript.Proofs.Layout
import ListScript.Proofs.NoPanic
import ListScript.Proofs.RestoredScopes
import ListScript.Proofs.AtomicChecking
import ListScript.Proofs.PrintedValues
import ListScript.Proofs.Arithmetic
import ListScript.Proofs.MalformedCharacters
import ListScript.Proofs.CursorAfterParse
import ListScript.Proofs.PrecedenceClimbing
import ListScript.Proofs.LoopVariables
import ListScript.Proofs.ScopeBrackets
import ListScript.Proofs.IntegerLiterals
import ListScript.Proofs.Termination
import ListScript.Proofs.CaretPlaces
import ListScript.Proofs.LongestMatch
import ListScript.Proofs.ResumedReading
import ListScript.Proofs.RealPlaces
import ListScript.Proofs.TypeNames
