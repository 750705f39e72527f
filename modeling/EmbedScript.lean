import EmbedScript.Number.Binary
import EmbedScript.Number.Shortest
import EmbedScript.Number.Text
import EmbedScript.Number.Int32
import EmbedScript.Text.Units
import EmbedScript.Text.Alphabetic
import EmbedScript.Text.Classes
import EmbedScript.Syntax.Token
import EmbedScript.Syntax.Lexer
import EmbedScript.Syntax.Ast
import EmbedScript.Syntax.Parser
import EmbedScript.Value
import EmbedScript.Error
import EmbedScript.Host.Native
import EmbedScript.Host.Registry
import EmbedScript.Heap.Object
import EmbedScript.Heap.Basic
import EmbedScript.Heap.Collect
import EmbedScript.Engine.State
import EmbedScript.Engine.Convert
import EmbedScript.Engine.Property
import EmbedScript.Engine.Scope
import EmbedScript.Engine.Interface
import EmbedScript.Engine.Control
import EmbedScript.Engine.Natives
import EmbedScript.Engine.Evaluator
import EmbedScript.Engine.Statements
import EmbedScript.Engine.Expressions
import EmbedScript.Engine.Calls
import EmbedScript.Engine.Run
import EmbedScript.Number.Wire
import EmbedScript.Session.Describe
import EmbedScript.Session.Step
import EmbedScript.Proofs.HeapSlots
import EmbedScript.Proofs.Marking
import EmbedScript.Proofs.Collection
import EmbedScript.Proofs.Steps
import EmbedScript.Proofs.Logic
import EmbedScript.Proofs.Primitives
import EmbedScript.Proofs.Frames
import EmbedScript.Proofs.Guarded
import EmbedScript.Proofs.Completion
import EmbedScript.Proofs.Statements
import EmbedScript.Proofs.Expressions
import EmbedScript.Proofs.Natives
import EmbedScript.Proofs.Calls
import EmbedScript.Proofs.Entry
import EmbedScript.Proofs.Levels
import EmbedScript.Proofs.Outcomes
import EmbedScript.Proofs.Validation
import EmbedScript.Proofs.Display
import EmbedScript.Proofs.NestingBudget
import EmbedScript.Proofs.NestingLimit
import EmbedScript.Proofs.Survival
import EmbedScript.Proofs.Properties
import EmbedScript.Proofs.Finalizers
import EmbedScript.Proofs.ParserState
import EmbedScript.Proofs.ParserRules
import EmbedScript.Proofs.ParserExpressions
import EmbedScript.Proofs.ParserRecursion
import EmbedScript.Proofs.Hoisting
import EmbedScript.Proofs.Equality
import EmbedScript.Proofs.FloatBits
import EmbedScript.Proofs.Rounding
import EmbedScript.Proofs.NumberText
import EmbedScript.Proofs.IndexKeys
import EmbedScript.Proofs.EvaluationOrder
import EmbedScript.Proofs.StringLiterals
import EmbedScript.Proofs.Identifiers
import EmbedScript.Proofs.LineNumbers
import EmbedScript.Proofs.NaNFree
import EmbedScript.Proofs.NumericLiterals
import EmbedScript.Proofs.HandleTable
import EmbedScript.Proofs.HeapAccounting
import EmbedScript.Proofs.ExactIntegers
import EmbedScript.Proofs.StringNumbers
import EmbedScript.Proofs.ModularIntegers
import EmbedScript.Proofs.UnitIndexing
import EmbedScript.Proofs.SessionSafety
import EmbedScript.Proofs.HostProxies
import EmbedScript.Proofs.Atomicity
import EmbedScript.Proofs.Refusals
import EmbedScript.Proofs.HostCalls
import EmbedScript.Proofs.DepthLimits
import EmbedScript.Proofs.Reclamation
