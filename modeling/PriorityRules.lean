import PriorityRules.Engine.Printing
import PriorityRules.Engine.RulesFile
import PriorityRules.Engine.Setup
import PriorityRules.Proofs.Engine.Acting
import PriorityRules.Proofs.Engine.Loading
import PriorityRules.Sample.Session
import PriorityRules.Proofs.Engine.History
import PriorityRules.Proofs.Engine.Recognition
import PriorityRules.Proofs.Evaluation.Renaming
import PriorityRules.Proofs.Evaluation.Surroundings
import PriorityRules.Proofs.Reading.Concatenation
import PriorityRules.Proofs.Reading.Pieces
import PriorityRules.Proofs.Reading.Reordering
import PriorityRules.Proofs.Engine.Reordering
import PriorityRules.Proofs.Reading.Location
import PriorityRules.Proofs.Engine.Integrity
import PriorityRules.Proofs.Evaluation.Shuffling
import PriorityRules.Proofs.Evaluation.Skipping
import PriorityRules.Proofs.Evaluation.CircularPaths
import PriorityRules.Proofs.Evaluation.Answers
import PriorityRules.Proofs.Evaluation.Visits
import PriorityRules.Proofs.Reading.Groups
import PriorityRules.Proofs.Reading.Insertion
import PriorityRules.Proofs.Reading.FirstReferences
import PriorityRules.Proofs.Reading.Cuts
import PriorityRules.Proofs.Engine.Reloading
import PriorityRules.Proofs.Reading.Calls
import PriorityRules.Proofs.Engine.DoubleNegation
import PriorityRules.Proofs.Reading.Tokens
import PriorityRules.Proofs.Reading.LineEndings
import PriorityRules.Proofs.Reading.Mentions
import PriorityRules.Proofs.Engine.WrittenComparisons
import PriorityRules.Proofs.Reading.Levels
import PriorityRules.Proofs.Engine.Contributions
import PriorityRules.Proofs.Reading.Places
import PriorityRules.Proofs.Engine.Marks
import PriorityRules.Proofs.Evaluation.Machine
import PriorityRules.Proofs.Evaluation.Comparing
