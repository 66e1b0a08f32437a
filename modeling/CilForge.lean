import CilForge.Body.Arena
import CilForge.Body.Basic
import CilForge.Body.Check
import CilForge.Body.Depth
import CilForge.Body.Edit
import CilForge.Body.Listing
import CilForge.CallSite.Apply
import CilForge.CallSite.Match
import CilForge.CallSite.StraightLine
import CilForge.Decimal.Shortest
import CilForge.Draft
import CilForge.EnumInfo
import CilForge.Event
import CilForge.Fault
import CilForge.Finally.Flatten
import CilForge.Finally.Layout
import CilForge.Finally.Nesting
import CilForge.Generate
import CilForge.Instr
import CilForge.IntKind
import CilForge.Library
import CilForge.Machine.Arith
import CilForge.Machine.Fault
import CilForge.Machine.Frame
import CilForge.Machine.Interpreter
import CilForge.Machine.Intrinsic
import CilForge.Machine.Run
import CilForge.Machine.Value
import CilForge.Module.Basic
import CilForge.Module.Enum
import CilForge.Opcode
import CilForge.Path
import CilForge.Pipeline
import CilForge.Platform
import CilForge.Project
import CilForge.Region
import CilForge.Roster
import CilForge.Session
import CilForge.Settings
import CilForge.Signature
import CilForge.Store
import CilForge.Text.Numeral
import CilForge.Text.Quoted
import CilForge.Text.Unprintable
import CilForge.Text.Utf8
import CilForge.Token
import CilForge.TypeName
import CilForge.Unroll
import CilForge.Workpiece
import CilForge.Proofs.Draft.Play
import CilForge.Proofs.Enum.Number
import CilForge.Proofs.Enum.Names
import CilForge.Proofs.Enum.Exact
import CilForge.Proofs.Generate.Lookup
import CilForge.Proofs.Finally.Departures
import CilForge.Proofs.Finally.Pending
import CilForge.Proofs.Body.Linked
import CilForge.Proofs.Body.Refusal
import CilForge.Proofs.Generate.Operations
import CilForge.Proofs.Module.Extends
import CilForge.Proofs.Pipeline.Frame
import CilForge.Proofs.Pipeline.Ledger
import CilForge.Proofs.Body.Arrivals
import CilForge.Proofs.Body.Check
import CilForge.Proofs.Generate.Verified
import CilForge.Proofs.Body.Listwise
import CilForge.Proofs.Body.Splice
import CilForge.Proofs.CallSite.Align
import CilForge.Proofs.CallSite.Flatten
import CilForge.Proofs.Pipeline.Requests
import CilForge.Proofs.Pipeline.Idempotent
import CilForge.Proofs.CallSite.Places
import CilForge.Proofs.Machine.Straight
import CilForge.Proofs.CallSite.Lines
import CilForge.Proofs.CallSite.Sites
import CilForge.Proofs.Machine.Depth
import CilForge.Proofs.Finally.Cleared
import CilForge.Proofs.Finally.Removal
import CilForge.Proofs.CallSite.Total
import CilForge.Proofs.CallSite.Preserve
import CilForge.Proofs.CallSite.Defaults
import CilForge.Proofs.Enum.Flags
import CilForge.Proofs.Draft.Refused
import CilForge.Proofs.Listing.Identify
import CilForge.Proofs.Enum.Declared
import CilForge.Proofs.Module.Forest
import CilForge.Proofs.Pipeline.Ending
import CilForge.Proofs.Machine.Callers
import CilForge.Proofs.Machine.Bounded
import CilForge.Proofs.CallSite.Scan
import CilForge.Proofs.Enum.Stack
import CilForge.Proofs.Machine.Exchange
import CilForge.Proofs.Finally.Inverted
