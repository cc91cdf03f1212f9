import TypeInfer.Main
import TypeInfer.Proofs.BaseSearch
import TypeInfer.Proofs.BlankLines
import TypeInfer.Proofs.Bookkeeping
import TypeInfer.Proofs.CallArguments
import TypeInfer.Proofs.Declarations
import TypeInfer.Proofs.DottedImports
import TypeInfer.Proofs.FailedLoads
import TypeInfer.Proofs.InBounds
import TypeInfer.Proofs.LadderReads
import TypeInfer.Proofs.LibraryIntact
import TypeInfer.Proofs.LineEndings
import TypeInfer.Proofs.LineTable
import TypeInfer.Proofs.ModuleNames
import TypeInfer.Proofs.NestedSpans
import TypeInfer.Proofs.Nesting
import TypeInfer.Proofs.Recovery
import TypeInfer.Proofs.References
import TypeInfer.Proofs.Rendering
import TypeInfer.Proofs.RepeatedReports
import TypeInfer.Proofs.Resolution
import TypeInfer.Proofs.RunningKeys
import TypeInfer.Proofs.StringTokens
import TypeInfer.Proofs.TreeChanges
