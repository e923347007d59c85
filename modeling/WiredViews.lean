import WiredViews.Script
import WiredViews.Session
import WiredViews.Validator
import WiredViews.Proofs.Feeding
import WiredViews.Proofs.Cycles
import WiredViews.Proofs.LevelPlaces
import WiredViews.Proofs.BlockEntries
import WiredViews.Proofs.CascadeReach
import WiredViews.Proofs.Containment
import WiredViews.Proofs.DeclarationGrammar
import WiredViews.Proofs.LogicalRuns
import WiredViews.Proofs.PhysicalLines
import WiredViews.Proofs.PlanLookups
import WiredViews.Proofs.RegionGrammar
import WiredViews.Proofs.TemplateGrammar
import WiredViews.Proofs.TimelyLevels
import WiredViews.Proofs.EntryAnswers
import WiredViews.Proofs.ValueEquations
import WiredViews.Proofs.LevelStrategies
import WiredViews.Proofs.Timing
import WiredViews.Proofs.FaultPatterns
import WiredViews.Proofs.SpelledLines
import WiredViews.Proofs.SpelledTemplate
import WiredViews.Proofs.Replay
import WiredViews.Proofs.ArgumentFit
import WiredViews.Proofs.LevelBarrier
import WiredViews.Proofs.TypingAborts
import WiredViews.Proofs.EngineSource
import WiredViews.Proofs.Substitution
import WiredViews.Proofs.RecordDomain
import WiredViews.Proofs.Standings
import WiredViews.Proofs.Registering
import WiredViews.Proofs.SessionHistory
import WiredViews.Proofs.RegistryHistory
import WiredViews.Proofs.CallCounts
import WiredViews.Proofs.SnapshotIsolation
import WiredViews.Proofs.GroupOrder
import WiredViews.Proofs.LongestChains
import WiredViews.Proofs.HopLevels
import WiredViews.Proofs.DirectPruning
import WiredViews.Proofs.TableAgreement
import WiredViews.Proofs.Reordering
import WiredViews.Proofs.ReorderedRuns
import WiredViews.Proofs.ReorderedText
import WiredViews.Proofs.RegionLines
import WiredViews.Proofs.ViewSpans
import WiredViews.Proofs.WellFormedTemplates
import WiredViews.Proofs.DeclarationLines
import WiredViews.Proofs.RetoldRegions
import WiredViews.Proofs.CopySemantics
import WiredViews.Proofs.FirstFaults
import WiredViews.Proofs.LineRuns
import WiredViews.Proofs.DroppedLines
import WiredViews.Proofs.LineEndings
import WiredViews.Proofs.LaidLines
import WiredViews.Proofs.OutlinedTexts
import WiredViews.Proofs.RelaidTexts
import WiredViews.Proofs.ArgumentVerdicts
import WiredViews.Proofs.LookupTables
import WiredViews.Proofs.SourceBraces
import WiredViews.Proofs.MarkupSlots
import WiredViews.Proofs.WritableNames
import WiredViews.Proofs.CompiledViews
import WiredViews.Proofs.LiteralViews
import WiredViews.Proofs.RankingRuns
import WiredViews.Proofs.LevelLoops
import WiredViews.Proofs.CascadeWalk
import WiredViews.Proofs.BlockSearch
import WiredViews.Proofs.LosslessLines
