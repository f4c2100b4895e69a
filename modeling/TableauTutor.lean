import TableauTutor.Command.Prompt
import TableauTutor.Main
import TableauTutor.Rendering.Html
import TableauTutor.Sentence.Part
import TableauTutor.Session.Request
import TableauTutor.Proofs.Tables
import TableauTutor.Proofs.Brackets
import TableauTutor.Proofs.SyntaxTree
import TableauTutor.Proofs.UniqueReadability
import TableauTutor.Proofs.Grammar
import TableauTutor.Proofs.Derivation
import TableauTutor.Proofs.Remembering
import TableauTutor.Proofs.Reading
import TableauTutor.Proofs.Language
import TableauTutor.Proofs.Meaning
import TableauTutor.Proofs.StrictRules
import TableauTutor.Proofs.Strands
import TableauTutor.Proofs.Growth
import TableauTutor.Proofs.Closure
import TableauTutor.Proofs.Agenda
import TableauTutor.Proofs.Effort
import TableauTutor.Proofs.SolverStep
import TableauTutor.Proofs.SolverInvariant
import TableauTutor.Proofs.SolverRun
import TableauTutor.Proofs.Statement
import TableauTutor.Proofs.Decision
import TableauTutor.Proofs.Cutting
import TableauTutor.Proofs.LooseRules
import TableauTutor.Proofs.Layers
import TableauTutor.Proofs.Moves
import TableauTutor.Proofs.Naming
import TableauTutor.Proofs.MainConnective
import TableauTutor.Proofs.Waiting
import TableauTutor.Proofs.Justified
import TableauTutor.Proofs.Steps
import TableauTutor.Proofs.Checking
import TableauTutor.Proofs.Recording
import TableauTutor.Proofs.Repeating
import TableauTutor.Proofs.Plugging
import TableauTutor.Proofs.Upkeep
import TableauTutor.Proofs.Saving
import TableauTutor.Proofs.Reached
import TableauTutor.Proofs.Undoing
import TableauTutor.Proofs.Loading
import TableauTutor.Proofs.GivingUp
import TableauTutor.Proofs.CurrentBranch
import TableauTutor.Proofs.Halfway
import TableauTutor.Proofs.Agreement
import TableauTutor.Proofs.Histories
import TableauTutor.Proofs.ChosenConnective
import TableauTutor.Proofs.SolverReplay
import TableauTutor.Proofs.LexerFollows
import TableauTutor.Proofs.Lasting
import TableauTutor.Proofs.ClosedBranches
import TableauTutor.Proofs.SignedForms
import TableauTutor.Proofs.Words
import TableauTutor.Proofs.TypedBack
import TableauTutor.Proofs.SolvingAgain
import TableauTutor.Proofs.Copying
import TableauTutor.Proofs.BracketNormalForm
import TableauTutor.Proofs.LeadingOperators
import TableauTutor.Proofs.EnclosingPairs
import TableauTutor.Proofs.KeptForm
import TableauTutor.Proofs.ReducedOutline
import TableauTutor.Proofs.Alignment
import TableauTutor.Proofs.Complaints
import TableauTutor.Proofs.Answering
import TableauTutor.Proofs.NamedContradictions
import TableauTutor.Proofs.AmountsUndone
import TableauTutor.Proofs.Selecting
import TableauTutor.Proofs.LongestWords
import TableauTutor.Proofs.Dialects
import TableauTutor.Proofs.Drawing
import TableauTutor.Proofs.Shapes
import TableauTutor.Proofs.MadeUp
import TableauTutor.Proofs.Practice
import TableauTutor.Proofs.PracticeTexts
import TableauTutor.Proofs.Likeness
import TableauTutor.Proofs.HistoryCommands
import TableauTutor.Proofs.Parts
import TableauTutor.Proofs.SocketUse
import TableauTutor.Proofs.Sideways
import TableauTutor.Proofs.ForestExport
