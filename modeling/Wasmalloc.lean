import Wasmalloc.Refusals
import Wasmalloc.Shortcuts
import Wasmalloc.SliceSets
import Wasmalloc.OutOfMemory
import Wasmalloc.Extend
import Wasmalloc.PageModel
import Wasmalloc.Leaks
import Wasmalloc.Retention
import Wasmalloc.EmptyPages
import Wasmalloc.Secrecy
import Wasmalloc.Classes
import Wasmalloc.Testing.Sim
import Wasmalloc.Masks
import Wasmalloc.Testing.Overlap
import Wasmalloc.Testing.Ledger
import Wasmalloc.Validators
import Wasmalloc.Candidates
import Wasmalloc.InPlace
import Wasmalloc.CallChecks
import Wasmalloc.Global
import Wasmalloc.Shared
import Wasmalloc.Testing.Soundness
import Wasmalloc.HeapValidate
import Wasmalloc.GrowthRate
