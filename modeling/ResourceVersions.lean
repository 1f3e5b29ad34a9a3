import ResourceVersions.Api.Basic
import ResourceVersions.Api.Document
import ResourceVersions.Api.Equality
import ResourceVersions.Api.Ignore
import ResourceVersions.Api.Kind
import ResourceVersions.Api.Walk
import ResourceVersions.Code.Basic
import ResourceVersions.Code.Render
import ResourceVersions.CommandLine
import ResourceVersions.Config.Basic
import ResourceVersions.Config.Document
import ResourceVersions.Conversion.Copy
import ResourceVersions.Conversion.CopyHelper
import ResourceVersions.Conversion.Functions
import ResourceVersions.Delta.Basic
import ResourceVersions.Delta.Diff
import ResourceVersions.Document
import ResourceVersions.Error
import ResourceVersions.FilePath
import ResourceVersions.FileStore
import ResourceVersions.FileTree
import ResourceVersions.Hint
import ResourceVersions.HintReader
import ResourceVersions.Json.Basic
import ResourceVersions.Json.Ordered
import ResourceVersions.Json.Printer
import ResourceVersions.Json.Reader
import ResourceVersions.Json.Shown
import ResourceVersions.Log
import ResourceVersions.Log.Setup
import ResourceVersions.Main
import ResourceVersions.Manifest
import ResourceVersions.Model.Basic
import ResourceVersions.Model.Build
import ResourceVersions.Model.Reach
import ResourceVersions.Model.Types
import ResourceVersions.Name.Basic
import ResourceVersions.Name.FieldPath
import ResourceVersions.Name.Noun
import ResourceVersions.Name.Words
import ResourceVersions.Number.Binary64
import ResourceVersions.Number.Literal
import ResourceVersions.Number.Shortest
import ResourceVersions.Package.Generate
import ResourceVersions.Package.Write
import ResourceVersions.Proofs.ApiOrder
import ResourceVersions.Proofs.AttributeNames
import ResourceVersions.Proofs.BuiltHelpers
import ResourceVersions.Proofs.BuiltModel
import ResourceVersions.Proofs.BuiltResource
import ResourceVersions.Proofs.CallClosure
import ResourceVersions.Proofs.ClassNames
import ResourceVersions.Proofs.CleanDocumentation
import ResourceVersions.Proofs.CodeMeaning
import ResourceVersions.Proofs.CodePaths
import ResourceVersions.Proofs.CodeStructure
import ResourceVersions.Proofs.CompleteModel
import ResourceVersions.Proofs.ConfigOrder
import ResourceVersions.Proofs.ConfigSchema
import ResourceVersions.Proofs.Conforming
import ResourceVersions.Proofs.ConversionCalls
import ResourceVersions.Proofs.ConversionErrors
import ResourceVersions.Proofs.ConversionOrder
import ResourceVersions.Proofs.ConversionRun
import ResourceVersions.Proofs.CopyCode
import ResourceVersions.Proofs.CopyMeaning
import ResourceVersions.Proofs.CopyRounds
import ResourceVersions.Proofs.DeepCopy
import ResourceVersions.Proofs.DefinedOnce
import ResourceVersions.Proofs.DeprecationPolicy
import ResourceVersions.Proofs.DocumentOrder
import ResourceVersions.Proofs.DroppedShapes
import ResourceVersions.Proofs.Effects
import ResourceVersions.Proofs.ElementChain
import ResourceVersions.Proofs.EmissionLimits
import ResourceVersions.Proofs.EnclosedDocumentation
import ResourceVersions.Proofs.EqualStructure
import ResourceVersions.Proofs.Except
import ResourceVersions.Proofs.FailureIsolation
import ResourceVersions.Proofs.FieldCode
import ResourceVersions.Proofs.FieldCodec
import ResourceVersions.Proofs.FieldLog
import ResourceVersions.Proofs.FieldOrigins
import ResourceVersions.Proofs.FieldPartition
import ResourceVersions.Proofs.FieldPasses
import ResourceVersions.Proofs.FittingValues
import ResourceVersions.Proofs.GroupedOperations
import ResourceVersions.Proofs.HelperCalls
import ResourceVersions.Proofs.HelperPairs
import ResourceVersions.Proofs.HelperRun
import ResourceVersions.Proofs.HelperTable
import ResourceVersions.Proofs.IgnoreRules
import ResourceVersions.Proofs.Indentation
import ResourceVersions.Proofs.IntegerText
import ResourceVersions.Proofs.JsonText
import ResourceVersions.Proofs.LiveVariables
import ResourceVersions.Proofs.MirroredDeltas
import ResourceVersions.Proofs.ModelOrder
import ResourceVersions.Proofs.ModuleClasses
import ResourceVersions.Proofs.NestedFields
import ResourceVersions.Proofs.NestedPaths
import ResourceVersions.Proofs.NestedSecrets
import ResourceVersions.Proofs.NormalNames
import ResourceVersions.Proofs.OneToOneRenames
import ResourceVersions.Proofs.PackageContents
import ResourceVersions.Proofs.PackageOrder
import ResourceVersions.Proofs.PackageOutcome
import ResourceVersions.Proofs.PackageRun
import ResourceVersions.Proofs.PartObject
import ResourceVersions.Proofs.PartRun
import ResourceVersions.Proofs.PrintedExpressions
import ResourceVersions.Proofs.ReachableShapes
import ResourceVersions.Proofs.ReachableTypes
import ResourceVersions.Proofs.Rebuilt
import ResourceVersions.Proofs.Recursion
import ResourceVersions.Proofs.RegisteredModel
import ResourceVersions.Proofs.RegistryRun
import ResourceVersions.Proofs.RelatedRuns
import ResourceVersions.Proofs.RenderedCode
import ResourceVersions.Proofs.ResourceOrder
import ResourceVersions.Proofs.RoundTrip
import ResourceVersions.Proofs.Rounds
import ResourceVersions.Proofs.SectionDeltas
import ResourceVersions.Proofs.SectionOrder
import ResourceVersions.Proofs.SingularNouns
import ResourceVersions.Proofs.Spelling
import ResourceVersions.Proofs.StashCodec
import ResourceVersions.Proofs.StashHistory
import ResourceVersions.Proofs.StashSteps
import ResourceVersions.Proofs.SteadyRuns
import ResourceVersions.Proofs.StoreDiscipline
import ResourceVersions.Proofs.SubmissionOrder
import ResourceVersions.Proofs.Table
import ResourceVersions.Proofs.TableOrder
import ResourceVersions.Proofs.Termination
import ResourceVersions.Proofs.TypedValue
import ResourceVersions.Proofs.UnresolvedShapes
import ResourceVersions.Proofs.UntrustedText
import ResourceVersions.Proofs.UsableNames
import ResourceVersions.Proofs.Variables
import ResourceVersions.Proofs.VersionOrder
import ResourceVersions.Proofs.VersionSpelling
import ResourceVersions.Proofs.WordSplitting
import ResourceVersions.Proofs.WrappedLines
import ResourceVersions.Registry.Basic
import ResourceVersions.Registry.Compare
import ResourceVersions.Registry.Load
import ResourceVersions.Resource.Basic
import ResourceVersions.Resource.Build
import ResourceVersions.Resource.Fields
import ResourceVersions.Resource.Nested
import ResourceVersions.Resource.Renames
import ResourceVersions.Resource.Secrets
import ResourceVersions.Source.Classes
import ResourceVersions.Source.ConversionModule
import ResourceVersions.Source.Docstring
import ResourceVersions.Source.TypesModule
import ResourceVersions.Stash.Codec
import ResourceVersions.Stash.Store
import ResourceVersions.Table
import ResourceVersions.Text.Blank
import ResourceVersions.Text.Digit
import ResourceVersions.Text.Printable
import ResourceVersions.Text.Quoted
import ResourceVersions.Text.Ranges
import ResourceVersions.Text.Split
import ResourceVersions.Text.Wrapped
import ResourceVersions.Value.Basic
import ResourceVersions.Value.Classes
import ResourceVersions.Value.Rebuild
import ResourceVersions.Value.Timestamp
import ResourceVersions.Value.TimestampReader
import ResourceVersions.Version
import ResourceVersions.Yaml.Place
import ResourceVersions.Yaml.Plain
import ResourceVersions.Yaml.Quoted
import ResourceVersions.Yaml.Reader
import ResourceVersions.Yaml.Scalar
import ResourceVersions.Yaml.Token
import ResourceVersions.Yaml.TokenReader
