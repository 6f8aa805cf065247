import ViewLint.Engine.Json
import ViewLint.Main
import ViewLint.Proofs.Announcements
import ViewLint.Proofs.CleanedCopies
import ViewLint.Proofs.CollectedFiles
import ViewLint.Proofs.Completion
import ViewLint.Proofs.Component.Walk
import ViewLint.Proofs.CustomMethods
import ViewLint.Proofs.DivergingPaths
import ViewLint.Proofs.FreshEngines
import ViewLint.Proofs.GrowingExpressions
import ViewLint.Proofs.KeptBindings
import ViewLint.Proofs.PatternVerdicts
import ViewLint.Proofs.Persistence
import ViewLint.Proofs.Placeholders
import ViewLint.Proofs.ReferenceParts
import ViewLint.Proofs.RegistryTables
import ViewLint.Proofs.RuleCoverage
import ViewLint.Proofs.Siblings
import ViewLint.Proofs.Suggestions
import ViewLint.Proofs.UniqueNames
import ViewLint.Proofs.ViewFiles
import ViewLint.Proofs.ViolationCounts
import ViewLint.PropertySurvey
import ViewLint.Rule.ComponentQuestion
import ViewLint.Rule.Sample
import ViewLint.ScriptCheck.Json
import ViewLint.TestCase
import ViewLint.Timing.Json
